import ModuleLens.Proofs.Text.Extents

/-! Extents of arbitrary spans.  A span may come from a tree of another text: it may be reversed, go
beyond the text or split scalars.  Its extent never does, and its bytes and its positions are turned
into each other by the conversions of the text. -/

namespace ModuleLens

open Position

namespace Text

variable {t : Text}

theorem boundary_snap (t : Text) (b : Nat) : t.Boundary (t.snap b) := by
  obtain ⟨rest, ht, _⟩ := t.takeBytes_cases b
  exact ⟨_, rest, ht, rfl⟩

theorem Boundary.le {b : Nat} (h : t.Boundary b) : b ≤ t.byteLength := by
  obtain ⟨head, rest, rfl, rfl⟩ := h
  exact byteLength_le_of_prefix ⟨rest, rfl⟩

theorem positionOf_of_le {b : Nat} (h : b ≤ t.byteLength) : t.positionOf b = .ok (t.positionAt b) :=
  if_pos h

/-- The position of the start of a scalar leads back there. -/
theorem Boundary.offsetOf {b : Nat} (h : t.Boundary b) : t.offsetOf (t.positionAt b) = .ok b := by
  obtain ⟨p, o, hp, ho, _, hback⟩ := exists_position h.le
  rw [positionOf_of_le h.le] at hp
  cases hp
  rw [ho, hback h]

theorem boundary_of_offsetOf {p : Position} {o : Nat} (h : t.offsetOf p = .ok o) :
    t.Boundary o := by
  obtain ⟨head, rest, ht, _, ho⟩ := offsetOf_eq_ok.1 h
  exact ⟨head, rest, ht, ho⟩

/-- A position that splits no pair is that of the byte offset to which it leads. -/
theorem eq_positionAt {p : Position} {o : Nat} (h : t.offsetOf p = .ok o) (hs : ¬ p.Splits t) :
    p = t.positionAt o := by
  have hp := (positionOf_offsetOf h).1 hs
  rw [positionOf_of_le (boundary_of_offsetOf h).le] at hp
  cases hp
  rfl

theorem positionAt_before_iff {b b' : Nat} (h : t.Boundary b) (h' : t.Boundary b') :
    (t.positionAt b).before (t.positionAt b') ↔ b ≤ b' :=
  ⟨fun hle => offsetOf_mono hle h.offsetOf h'.offsetOf, fun hle => positionAt_mono hle t⟩

theorem rangeOf_of_boundary {s : Span} (hstart : t.Boundary s.start) (hstop : t.Boundary s.stop) :
    t.rangeOf s = .ok (t.positionsAt s) := by
  rw [rangeOf, positionOf_of_le hstart.le, positionOf_of_le hstop.le]
  rfl

theorem spanOf_positionsAt {s : Span} (hstart : t.Boundary s.start) (hstop : t.Boundary s.stop) :
    t.spanOf (t.positionsAt s) = .ok s := by
  rw [spanOf, positionsAt, hstart.offsetOf, hstop.offsetOf]
  rfl

theorem positionAt_fits (h : t.byteLength < UInt32.size) (b : Nat) :
    (t.positionAt b).line < UInt32.size ∧ (t.positionAt b).character < UInt32.size := by
  obtain ⟨rest, ht, _⟩ := t.takeBytes_cases b
  have hpre := byteLength_le_of_prefix ⟨rest, ht.symm⟩
  have hsum := line_le_byteLength (t.takeBytes b)
  rw [positionAt]
  omega

end Text

namespace Extent

variable {t : Text} {s : Span}

theorem ofSpan_boundary (t : Text) (s : Span) :
    t.Boundary (ofSpan t s).bytes.start ∧ t.Boundary (ofSpan t s).bytes.stop :=
  ⟨Text.boundary_snap t _, Text.boundary_snap t _⟩

theorem ofSpan_bytes (t : Text) (s : Span) : ofSpan t (ofSpan t s).bytes = ofSpan t s := by
  obtain ⟨hstart, hstop⟩ := ofSpan_boundary t s
  rw [ofSpan_of_boundary hstart hstop (ofSpan_ordered t s), ← positions_ofSpan]

theorem ofSpan_encloses_positions {u : Span} (h : s.Encloses u) (t : Text) :
    (ofSpan t s).positions.Encloses (ofSpan t u).positions := by
  obtain ⟨hstart, hordered, hstop⟩ := ofSpan_encloses h t
  rw [positions_ofSpan, positions_ofSpan]
  exact ⟨Text.positionAt_mono hstart t, Text.positionAt_mono hordered t,
    Text.positionAt_mono hstop t⟩

theorem contains_ofSpan_iff {p : Position} {o : Nat} (ho : t.offsetOf p = .ok o)
    (hp : ¬ p.Splits t) :
    (ofSpan t s).contains p ↔ (ofSpan t s).bytes.start ≤ o ∧ o ≤ (ofSpan t s).bytes.stop := by
  obtain ⟨hstart, hstop⟩ := ofSpan_boundary t s
  have hbound := Text.boundary_of_offsetOf ho
  rw [contains, Range.contains_iff, positions_ofSpan, Text.eq_positionAt ho hp]
  exact and_congr (Text.positionAt_before_iff hstart hbound)
    (Text.positionAt_before_iff hbound hstop)

end Extent

/-- The two halves of an extent describe the same stretch of the text, whatever span it was made
from: both ends are starts of scalars, each half converts to the other, spans that fit are kept, a
span inside another has its extent inside, and a position lies in the extent exactly if its byte
does. -/
theorem extents_aligned (t : Text) (s : Span) :
    let e := Extent.ofSpan t s
    (e.bytes.start ≤ e.bytes.stop ∧ e.bytes.stop ≤ t.byteLength ∧
      e.bytes.start + e.length = e.bytes.stop) ∧
    (t.Boundary e.bytes.start ∧ t.Boundary e.bytes.stop) ∧
    (t.rangeOf e.bytes = .ok e.positions ∧ t.spanOf e.positions = .ok e.bytes) ∧
    (s.start ≤ s.stop → t.Boundary s.start → t.Boundary s.stop → e.bytes = s) ∧
    Extent.ofSpan t e.bytes = e ∧
    (∀ u, s.Encloses u → e.bytes.Encloses (Extent.ofSpan t u).bytes ∧
      e.positions.Encloses (Extent.ofSpan t u).positions) ∧
    (∀ p o, t.offsetOf p = .ok o → ¬ p.Splits t →
      (e.contains p ↔ e.bytes.start ≤ o ∧ o ≤ e.bytes.stop)) ∧
    (∀ scale : Scale t, scale.extent s = e) ∧
    (t.byteLength < UInt32.size → ∀ p ∈ [e.positions.start, e.positions.stop],
      p.line < UInt32.size ∧ p.character < UInt32.size) := by
  intro e
  have hordered : e.bytes.start ≤ e.bytes.stop := Extent.ofSpan_ordered t s
  obtain ⟨hstart, hstop⟩ := Extent.ofSpan_boundary t s
  have hpositions : e.positions = t.positionsAt e.bytes := Extent.positions_ofSpan t s
  refine ⟨⟨hordered, hstop.le, Nat.add_sub_cancel' hordered⟩, ⟨hstart, hstop⟩, ⟨?_, ?_⟩,
    fun hle hs hs' => ?_, Extent.ofSpan_bytes t s,
    fun u hu => ⟨Extent.ofSpan_encloses hu t, Extent.ofSpan_encloses_positions hu t⟩,
    fun p o ho hp => Extent.contains_ofSpan_iff ho hp, fun scale => scale.extent_eq s,
    fun hlen p hp => ?_⟩
  · rw [hpositions]
    exact Text.rangeOf_of_boundary hstart hstop
  · rw [hpositions]
    exact Text.spanOf_positionsAt hstart hstop
  · exact congrArg Extent.bytes (Extent.ofSpan_of_boundary hs hs' hle)
  · rw [hpositions, Text.positionsAt] at hp
    rcases List.mem_cons.1 hp with rfl | hp
    · exact Text.positionAt_fits hlen _
    · rw [List.mem_singleton.1 hp]
      exact Text.positionAt_fits hlen _

theorem extents_aligned_pair :
    (Extent.ofSpan pairText ⟨3, 99⟩).bytes = ⟨1, 8⟩ ∧
    pairText.spanOf (Extent.ofSpan pairText ⟨3, 99⟩).positions = .ok ⟨1, 8⟩ ∧
    (Extent.ofSpan pairText ⟨1, 8⟩).bytes = ⟨1, 8⟩ ∧
    (Extent.ofSpan pairText ⟨3, 99⟩).bytes.Encloses (Extent.ofSpan pairText ⟨4, 6⟩).bytes ∧
    pairText.offsetOf ⟨1, 0⟩ = .ok 6 ∧ ¬ Position.Splits ⟨1, 0⟩ pairText ∧
    (Extent.ofSpan pairText ⟨3, 99⟩).contains ⟨1, 0⟩ ∧
    (Extent.ofSpan pairText ⟨3, 99⟩).positions.stop.line < UInt32.size := by
  have hbytes : (Extent.ofSpan pairText ⟨3, 99⟩).bytes = ⟨1, 8⟩ := by decide
  have hoffset : pairText.offsetOf ⟨1, 0⟩ = .ok 6 := by decide
  have hsplits : ¬ Position.Splits ⟨1, 0⟩ pairText :=
    fun ⟨_, _, _, _, _, h⟩ => Nat.succ_ne_zero _ h.symm
  obtain ⟨_, _, ⟨_, hspan⟩, _, _, hencloses, hcontains, _, hfits⟩ :=
    extents_aligned pairText ⟨3, 99⟩
  obtain ⟨_, _, _, hkept, _⟩ := extents_aligned pairText ⟨1, 8⟩
  refine ⟨hbytes, hbytes ▸ hspan, hkept (by decide) ⟨['a'], ['😀', '\n', 'é'], rfl, rfl⟩
    ⟨pairText, [], rfl, rfl⟩, (hencloses ⟨4, 6⟩ (by decide)).1, hoffset, hsplits, ?_, ?_⟩
  · rw [hcontains _ _ hoffset hsplits, hbytes]
    decide
  · exact (hfits (by decide) _ (by simp)).1

end ModuleLens
