import Mathlib.Data.List.Chain
import ModuleLens.Proofs.Document

/-! Batches that go backwards.  An edit leaves what stands before its start in place, so positions
there address afterwards what they addressed before.  A batch whose ranges come one before the other,
from the end of the text to its beginning, therefore replaces all its ranges at once, whatever its
edits do to the lines after them. -/

namespace ModuleLens

namespace Position

/-- A position that addresses a text between two scalars or at one of its ends. -/
def AtScalar (p : Position) (t : Text) : Prop := p.Addresses t ∧ ¬ p.Splits t

theorem atScalar_iff {p : Position} {t : Text} :
    p.AtScalar t ↔ ∃ head, head <+: t ∧ p = ofText head := by
  constructor
  · rintro ⟨ha, hs⟩
    obtain ⟨n, hn⟩ := Text.exists_charOffset.2 ha
    obtain ⟨head, rest, rfl, hcut, _⟩ := Text.charOffset_eq_ok.1 hn
    exact ⟨head, List.prefix_append head rest, hcut.whole hs⟩
  · rintro ⟨head, ⟨rest, rfl⟩, rfl⟩
    have hcut : (ofText head).Cuts head rest := .inl rfl
    refine ⟨Text.exists_charOffset.1 ⟨_, Text.charOffset_eq_ok.2 ⟨head, rest, rfl, hcut, rfl⟩⟩, ?_⟩
    intro hs
    have hsplit := congrArg character (hcut.split hs)
    simp at hsplit

theorem prefix_of_before {s u t : Text} (hs : s <+: t) (hu : u <+: t)
    (h : (ofText s).before (ofText u)) : s <+: u := by
  obtain ⟨rest, rfl⟩ := hs
  obtain ⟨rest', hu⟩ := hu
  have hcut : (ofText s).Cuts s rest := .inl rfl
  exact List.prefix_of_prefix_length_le ⟨rest, rfl⟩ ⟨rest', hu⟩
    (hcut.length_le (.inl rfl) hu.symm h)

end Position

namespace Text

theorem spanOf_append (s t u : Text) :
    spanOf (s ++ t ++ u) ⟨.ofText s, .ofText (s ++ t)⟩ = .ok ⟨s.byteLength, (s ++ t).byteLength⟩ := by
  have hstart : offsetOf (s ++ t ++ u) (.ofText s) = .ok s.byteLength :=
    offsetOf_eq_ok.2 ⟨s, t ++ u, List.append_assoc s t u, .inl rfl, rfl⟩
  have hstop : offsetOf (s ++ t ++ u) (.ofText (s ++ t)) = .ok (s ++ t).byteLength :=
    offsetOf_eq_ok.2 ⟨s ++ t, u, rfl, .inl rfl, rfl⟩
  rw [spanOf, hstart, hstop]
  rfl

/-- The text from byte `start` on, with the text of each span replaced at once: what stands before,
between and after the spans is cut from the text as it is.  The spans are listed forwards. -/
def replaceSpans (t : Text) (start : Nat) : List (Span × Text) → Option Text
  | [] => t.slice? start t.byteLength
  | (span, new) :: edits => do
    let gap ← t.slice? start span.start
    let rest ← t.replaceSpans span.stop edits
    return gap ++ (new ++ rest)

/-- The byte spans of ranges, each with what is to replace it. -/
def spansOf (t : Text) (edits : List (Range × Text)) : Except OutOfRange (List (Span × Text)) :=
  edits.mapM fun e => (t.spanOf e.1).map (·, e.2)

end Text

namespace Document

open Position

variable {t head changed : Text} {edits : List (Range × Text)} {done : List (Span × Text)}

/-- Edits of ranges between scalars of a text, listed from its end to its beginning: each range stops
at or before the start of the one listed before it. -/
structure Backwards (t : Text) (edits : List (Range × Text)) : Prop where
  start_atScalar : ∀ e ∈ edits, e.1.start.AtScalar t
  stop_atScalar : ∀ e ∈ edits, e.1.stop.AtScalar t
  start_before_stop : ∀ e ∈ edits, e.1.start.before e.1.stop
  apart : edits.IsChain fun e next => next.1.stop.before e.1.start

/-- The text `t` has become `head ++ changed`, and `head` is what has not been touched yet.  From
anywhere in `head` on, this is what replacing the spans that are done leads to. -/
structure Reached (t head changed : Text) (done : List (Span × Text)) : Prop where
  untouched : head <+: t
  replaced : ∀ s u, head = s ++ u → t.replaceSpans s.byteLength done = some (u ++ changed)

theorem reached_start (t : Text) : Reached t t [] [] := by
  refine ⟨List.prefix_refl t, fun s u ht => ?_⟩
  have hslice := Text.slice?_append s u []
  rw [List.append_nil, ← ht] at hslice
  rw [Text.replaceSpans, hslice, List.append_nil]

theorem splice_append (s removed u new : Text) :
    splice (s ++ removed ++ u) ⟨ofText s, ofText (s ++ removed)⟩ new = .ok (s ++ (new ++ u)) := by
  refine splice_eq_ok.2 ⟨s.length, (s ++ removed).length, ?_, ?_, ?_, ?_⟩
  · exact Text.charOffset_eq_ok.2 ⟨s, removed ++ u, List.append_assoc _ _ _, .inl rfl, rfl⟩
  · exact Text.charOffset_eq_ok.2 ⟨s ++ removed, u, rfl, .inl rfl, rfl⟩
  · simp
  · rw [List.drop_left, List.append_assoc, List.take_left]

/-- One edit in what is untouched leaves what stands before it untouched. -/
theorem Reached.step {s removed u : Text} (h : Reached t (s ++ removed ++ u) changed done)
    (new : Text) :
    Reached t s (new ++ (u ++ changed))
      ((⟨s.byteLength, (s ++ removed).byteLength⟩, new) :: done) := by
  obtain ⟨rest, rfl⟩ := h.untouched
  refine ⟨⟨removed ++ u ++ rest, by simp⟩, fun s' u' hs => ?_⟩
  subst hs
  have hgap := Text.slice?_append s' u' (removed ++ u ++ rest)
  rw [← List.append_assoc, ← List.append_assoc] at hgap
  rw [Text.replaceSpans, hgap, h.replaced (s' ++ u' ++ removed) u rfl]
  rfl

theorem Backwards.tail {e : Range × Text} (h : Backwards t (e :: edits)) : Backwards t edits :=
  ⟨fun a ha => h.start_atScalar a (List.mem_cons_of_mem e ha),
    fun a ha => h.stop_atScalar a (List.mem_cons_of_mem e ha),
    fun a ha => h.start_before_stop a (List.mem_cons_of_mem e ha), h.apart.tail⟩

/-- The next edit of a batch that goes backwards lies in what is untouched. -/
theorem Backwards.parts {r : Range} {new : Text} (h : Backwards t ((r, new) :: edits))
    (hhead : head <+: t) (hstop : r.stop.before (ofText head)) :
    ∃ s removed u, head = s ++ removed ++ u ∧ r = ⟨ofText s, ofText (s ++ removed)⟩ := by
  obtain ⟨s, hs, hstart⟩ := atScalar_iff.1 (h.start_atScalar _ List.mem_cons_self)
  obtain ⟨v, hv, hend⟩ := atScalar_iff.1 (h.stop_atScalar _ List.mem_cons_self)
  have hforward := h.start_before_stop _ List.mem_cons_self
  simp only at hstart hend hforward
  rw [hstart, hend] at hforward
  rw [hend] at hstop
  obtain ⟨removed, rfl⟩ := prefix_of_before hs hv hforward
  obtain ⟨u, rfl⟩ := prefix_of_before hv hhead hstop
  refine ⟨s, removed, u, rfl, ?_⟩
  rw [← hstart, ← hend]

/-- A batch that goes backwards is accepted from any text that such edits have led to. -/
theorem Reached.run (h : Reached t head changed done) (hb : Backwards t edits)
    (hstop : ∀ e ∈ edits.head?, e.1.stop.before (ofText head)) (alone : Bool) :
    ∃ spans u, t.spansOf edits = .ok spans ∧
      t.replaceSpans 0 (spans.reverse ++ done) = some u ∧
      (edits.map fun e => Change.mk (some e.1) e.2).foldlM (applyChange alone) (head ++ changed) =
        .ok u := by
  induction edits generalizing head changed done with
  | nil => exact ⟨[], head ++ changed, rfl, h.replaced [] head rfl, rfl⟩
  | cons e edits ih =>
    obtain ⟨r, new⟩ := e
    obtain ⟨s, removed, u, rfl, rfl⟩ := hb.parts h.untouched (hstop _ rfl)
    obtain ⟨rest, ht⟩ := h.untouched
    have hnext : ∀ e ∈ edits.head?, e.1.stop.before (ofText s) := by
      intro e he
      obtain ⟨edits', rfl⟩ := List.head?_eq_some_iff.1 he
      exact (List.isChain_cons_cons.1 hb.apart).1
    obtain ⟨spans, v, hspans, hv, hfold⟩ := ih (h.step new) hb.tail hnext
    have hspan : t.spanOf ⟨ofText s, ofText (s ++ removed)⟩ =
        .ok ⟨s.byteLength, (s ++ removed).byteLength⟩ := by
      have hh := Text.spanOf_append s removed (u ++ rest)
      rwa [← List.append_assoc, ht] at hh
    refine ⟨(⟨s.byteLength, (s ++ removed).byteLength⟩, new) :: spans, v, ?_, ?_, ?_⟩
    · rw [Text.spansOf] at hspans ⊢
      rw [List.mapM_cons, hspan, hspans]
      rfl
    · rw [List.reverse_cons, List.append_assoc]
      exact hv
    · rw [List.map_cons, List.foldlM_cons, applyChange]
      dsimp only
      rw [List.append_assoc (s ++ removed), splice_append]
      exact hfold

end Document

open Document

/-- A batch that goes backwards replaces the byte spans that its ranges have in the text at once.  It
is accepted with any version that is not stale. -/
theorem backwards_replaces_at_once {d : Document} {edits : List (Range × Text)}
    (h : Backwards d.text edits) :
    ∃ spans text, d.text.spansOf edits = .ok spans ∧
      d.text.replaceSpans 0 spans.reverse = some text ∧
      ∀ next, d.apply (edits.map fun e => ⟨some e.1, e.2⟩) next =
        match d.isStale next with
        | none => .ok ⟨d.uri, next, text⟩
        | some (current, next) => .error (.staleVersion current next) := by
  have hstop : ∀ e ∈ edits.head?, e.1.stop.before (.ofText d.text) := by
    intro e he
    obtain ⟨head, hhead, hp⟩ :=
      Position.atScalar_iff.1 (h.stop_atScalar e (List.mem_of_mem_head? he))
    rw [hp]
    exact Position.ofText_before hhead
  obtain ⟨spans, text, hspans, htext, hfold⟩ :=
    (reached_start d.text).run h hstop ((edits.map fun e => Change.mk (some e.1) e.2).length == 1)
  rw [List.append_nil] at htext hfold
  refine ⟨spans, text, hspans, htext, fun next => ?_⟩
  cases hs : d.isStale next with
  | some versions => rw [Document.apply, hs]
  | none =>
    rw [apply_of_fresh hs, hfold]
    rfl

/-- Three lines, the first with a pair in it. -/
def threeLines : Document :=
  ⟨⟨"file:///lines.pkl".toList, by decide⟩, some 1, "a😀\nb\nc".toList⟩

/-- Backwards: the last letter becomes two lines, the second line goes, two lines come in where it
started, and the pair is replaced. -/
def threeLinesEdits : List (Range × Text) :=
  [(⟨⟨2, 0⟩, ⟨2, 1⟩⟩, "x\ny".toList), (⟨⟨1, 0⟩, ⟨2, 0⟩⟩, []), (⟨⟨1, 0⟩, ⟨1, 0⟩⟩, "\n\n".toList),
    (⟨⟨0, 1⟩, ⟨0, 3⟩⟩, "é".toList)]

theorem backwards_replaces_at_once_lines :
    Backwards threeLines.text threeLinesEdits ∧
    threeLines.text.spansOf threeLinesEdits =
      .ok [(⟨8, 9⟩, "x\ny".toList), (⟨6, 8⟩, []), (⟨6, 6⟩, "\n\n".toList), (⟨1, 5⟩, "é".toList)] ∧
    threeLines.apply (threeLinesEdits.map fun e => ⟨some e.1, e.2⟩) (some 2) =
      .ok ⟨threeLines.uri, some 2, "aé\n\n\nx\ny".toList⟩ := by
  have hat {p : Position} (head : Text) (hp : head <+: threeLines.text) (h : p = .ofText head) :
      p.AtScalar threeLines.text := Position.atScalar_iff.2 ⟨head, hp, h⟩
  have hend := hat "a😀\nb\nc".toList (by decide) rfl
  have hthird := hat "a😀\nb\n".toList (by decide) rfl
  have hsecond := hat "a😀\n".toList (by decide) rfl
  have hb : Backwards threeLines.text threeLinesEdits := by
    refine ⟨?_, ?_, by decide, by decide⟩
    · simpa only [threeLinesEdits, List.forall_mem_cons] using
        ⟨hthird, hsecond, hsecond, hat "a".toList (by decide) rfl, List.forall_mem_nil _⟩
    · simpa only [threeLinesEdits, List.forall_mem_cons] using
        ⟨hend, hthird, hsecond, hat "a😀".toList (by decide) rfl, List.forall_mem_nil _⟩
  obtain ⟨spans, text, hspans, htext, happly⟩ := backwards_replaces_at_once hb
  cases hspans
  cases htext
  exact ⟨hb, rfl, happly (some 2)⟩

end ModuleLens
