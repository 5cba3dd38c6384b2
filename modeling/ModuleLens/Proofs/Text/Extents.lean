import Mathlib.Data.List.Chain
import ModuleLens.Proofs.Text.Positions

/-! Extents of spans.  Cutting a span to a text and moving its ends down to the starts of scalars
keeps offsets in order, and the positions of an extent are those of its bytes.  So spans that lie one
after the other in a span have extents that do so too, in bytes and in positions, whether the text
is as long as they say or not. -/

namespace ModuleLens

theorem pairwise_of_isChain {α β : Type} (le : β → β → Prop) (start stop : α → β)
    (htrans : ∀ {a b c : β}, le a b → le b c → le a c) {parts : List α}
    (hordered : ∀ u ∈ parts, le (start u) (stop u))
    (h : parts.IsChain fun u v => le (stop u) (start v)) :
    parts.Pairwise fun u v => le (stop u) (start v) := by
  induction parts with
  | nil => exact .nil
  | cons u parts ih =>
    have hparts := ih (fun v hv => hordered v (List.mem_cons_of_mem u hv)) h.tail
    refine List.pairwise_cons.2 ⟨fun v hv => ?_, hparts⟩
    cases parts with
    | nil => cases hv
    | cons next parts =>
      have hnext : le (stop u) (start next) := (List.isChain_cons_cons.1 h).1
      rcases List.mem_cons.1 hv with rfl | hv
      · exact hnext
      · have hlater := (List.pairwise_cons.1 hparts).1 v hv
        have hnext' := hordered next (List.mem_cons_of_mem u List.mem_cons_self)
        exact htrans hnext (htrans hnext' hlater)

namespace Position

/-- The strict order of positions: by line, and then by code unit. -/
def Precedes (p q : Position) : Prop :=
  p.line < q.line ∨ p.line = q.line ∧ p.character < q.character

instance (p q : Position) : Decidable (p.Precedes q) := inferInstanceAs (Decidable (_ ∨ _))

theorem precedes_iff {p q : Position} : p.Precedes q ↔ ¬ q.before p := by
  rw [before_iff, Precedes]
  omega

theorem Precedes.before {p q : Position} (h : p.Precedes q) : p.before q :=
  before_of_not (precedes_iff.1 h)

theorem precedes_of_before {p q r : Position} (h : p.before q) (h' : q.Precedes r) :
    p.Precedes r :=
  precedes_iff.2 fun hr => precedes_iff.1 h' (before_trans hr h)

theorem Precedes.trans_before {p q r : Position} (h : p.Precedes q) (h' : q.before r) :
    p.Precedes r :=
  precedes_iff.2 fun hr => precedes_iff.1 h (before_trans h' hr)

theorem eq_or_precedes {p q : Position} (h : p.before q) : p = q ∨ p.Precedes q := by
  obtain ⟨line, character⟩ := p
  obtain ⟨line', character'⟩ := q
  rw [before_iff] at h
  rw [Precedes, mk.injEq]
  simp only at h ⊢
  omega

end Position

namespace Span

variable {s u v : Span}

/-- A span holds one whose ends are in order and between its own. -/
def Encloses (s u : Span) : Prop := s.start ≤ u.start ∧ u.start ≤ u.stop ∧ u.stop ≤ s.stop

/-- One of two spans ends before the other one starts. -/
def Apart (s u : Span) : Prop := s.stop ≤ u.start ∨ u.stop ≤ s.start

/-- Spans that lie one after the other in a span. -/
def Holds (s : Span) (parts : List Span) : Prop :=
  (∀ u ∈ parts, s.Encloses u) ∧ parts.IsChain fun u v => u.stop ≤ v.start

instance : Decidable (s.Encloses u) := inferInstanceAs (Decidable (_ ∧ _))

instance {parts : List Span} : Decidable (s.Holds parts) := inferInstanceAs (Decidable (_ ∧ _))

theorem Encloses.trans (h : s.Encloses u) (h' : u.Encloses v) : s.Encloses v :=
  ⟨Nat.le_trans h.1 h'.1, h'.2.1, Nat.le_trans h'.2.2 h.2.2⟩

theorem Apart.symm (h : s.Apart u) : u.Apart s := Or.symm h

theorem Apart.within {s' u' : Span} (h : s.Apart u) (hs : s.Encloses s') (hu : u.Encloses u') :
    s'.Apart u' := by
  rcases h with h | h
  · exact .inl (Nat.le_trans hs.2.2 (Nat.le_trans h hu.1))
  · exact .inr (Nat.le_trans hu.2.2 (Nat.le_trans h hs.1))

theorem Holds.pairwise {parts : List Span} (h : s.Holds parts) :
    parts.Pairwise fun u v => u.stop ≤ v.start :=
  pairwise_of_isChain (· ≤ ·) start stop Nat.le_trans (fun u hu => (h.1 u hu).2.1) h.2

theorem holds_singleton (h : s.start ≤ s.stop) : s.Holds [s] := by
  refine ⟨fun u hu => ?_, .singleton s⟩
  rw [List.mem_singleton.1 hu]
  exact ⟨Nat.le_refl _, h, Nat.le_refl _⟩

theorem Holds.widen {parts : List Span} (h : s.Holds parts) (hstart : u.start ≤ s.start)
    (hstop : s.stop ≤ u.stop) : u.Holds parts :=
  ⟨fun v hv => ⟨Nat.le_trans hstart (h.1 v hv).1, (h.1 v hv).2.1,
    Nat.le_trans (h.1 v hv).2.2 hstop⟩, h.2⟩

theorem Holds.append {parts more : List Span} (h : s.Holds parts) (h' : u.Holds more)
    (hs : s.start ≤ s.stop) (hu : u.start ≤ u.stop) (hsu : s.stop ≤ u.start) :
    Holds ⟨s.start, u.stop⟩ (parts ++ more) := by
  have hleft : Holds ⟨s.start, u.stop⟩ parts := h.widen (Nat.le_refl _) (Nat.le_trans hsu hu)
  have hright : Holds ⟨s.start, u.stop⟩ more := h'.widen (Nat.le_trans hs hsu) (Nat.le_refl _)
  refine ⟨fun v hv => ?_, List.isChain_append.2 ⟨h.2, h'.2, fun v hv w hw => ?_⟩⟩
  · rcases List.mem_append.1 hv with hv | hv
    · exact hleft.1 v hv
    · exact hright.1 v hv
  · have hv := (h.1 v (List.mem_of_getLast? hv)).2.2
    have hw := (h'.1 w (List.mem_of_head? hw)).1
    exact Nat.le_trans hv (Nat.le_trans hsu hw)

/-- Of some parts in a span, each may be narrowed. -/
theorem Holds.narrow {α : Type} {xs ys : List α} {f g : α → Span} (h : s.Holds (xs.map f))
    (hs : ys.Sublist xs) (hg : ∀ y ∈ ys, (f y).Encloses (g y)) : s.Holds (ys.map g) := by
  refine ⟨fun u hu => ?_, List.Pairwise.isChain (List.pairwise_map.2 ?_)⟩
  · obtain ⟨y, hy, rfl⟩ := List.mem_map.1 hu
    exact (h.1 (f y) (List.mem_map_of_mem (hs.subset hy))).trans (hg y hy)
  · have hxs := (List.pairwise_map.1 h.pairwise).sublist hs
    refine hxs.imp_of_mem fun {a b} ha hb hab => ?_
    exact Nat.le_trans (hg a ha).2.2 (Nat.le_trans hab (hg b hb).1)

/-- A span that holds parts may as well end with the last one. -/
theorem Holds.tighten {parts : List Span} (h : s.Holds parts) (hu : parts.getLast? = some u) :
    Holds ⟨s.start, u.stop⟩ parts := by
  obtain ⟨init, rfl⟩ := List.getLast?_eq_some_iff.1 hu
  have hlast := h.1 u (by simp)
  refine ⟨fun v hv => ⟨(h.1 v hv).1, (h.1 v hv).2.1, ?_⟩, h.2⟩
  rcases List.mem_append.1 hv with hv | hv
  · have hbefore := (List.pairwise_append.1 h.pairwise).2.2 v hv u List.mem_cons_self
    exact Nat.le_trans hbefore hlast.2.1
  · rw [List.mem_singleton.1 hv]

end Span

namespace Range

/-- A range holds one whose ends are in order and between its own. -/
def Encloses (r q : Range) : Prop :=
  r.start.before q.start ∧ q.start.before q.stop ∧ q.stop.before r.stop

/-- Ranges that lie one after the other in a range. -/
def Holds (r : Range) (parts : List Range) : Prop :=
  (∀ q ∈ parts, r.Encloses q) ∧ parts.IsChain fun p q => p.stop.before q.start

theorem Holds.pairwise {r : Range} {parts : List Range} (h : r.Holds parts) :
    parts.Pairwise fun p q => p.stop.before q.start :=
  pairwise_of_isChain (fun p q => p.before q) start stop Position.before_trans
    (fun q hq => (h.1 q hq).2.1) h.2

theorem contains_iff {r : Range} {p : Position} :
    r.contains p ↔ r.start.before p ∧ p.before r.stop := by
  rw [contains, Bool.and_eq_true]

/-- A position strictly between the ends of a range. -/
def Surrounds (r : Range) (p : Position) : Prop := r.start.Precedes p ∧ p.Precedes r.stop

instance (r : Range) (p : Position) : Decidable (r.Surrounds p) :=
  inferInstanceAs (Decidable (_ ∧ _))

theorem Surrounds.contains {r : Range} {p : Position} (h : r.Surrounds p) : r.contains p :=
  contains_iff.2 ⟨h.1.before, h.2.before⟩

theorem Encloses.surrounds {r q : Range} {p : Position} (h : r.Encloses q) (hp : q.Surrounds p) :
    r.Surrounds p :=
  ⟨Position.precedes_of_before h.1 hp.1, hp.2.trans_before h.2.2⟩

/-- Of ranges one after the other, no other one contains a position that one surrounds. -/
theorem Surrounds.unique {r q : Range} {p : Position} (hp : r.Surrounds p)
    (h : r.stop.before q.start ∨ q.stop.before r.start) : ¬ q.contains p := by
  rw [contains_iff]
  rintro ⟨hstart, hstop⟩
  rcases h with h | h
  · exact Position.precedes_iff.1 hp.2 (Position.before_trans h hstart)
  · exact Position.precedes_iff.1 hp.1 (Position.before_trans hstop h)

end Range

namespace Text

variable {t : Text}

theorem snap_mono {b b' : Nat} (h : b ≤ b') (t : Text) : t.snap b ≤ t.snap b' :=
  byteLength_le_of_prefix (takeBytes_prefix_of_le h t)

theorem takeBytes_snap (t : Text) (b : Nat) : t.takeBytes (t.snap b) = t.takeBytes b := by
  obtain ⟨rest, ht, _⟩ := t.takeBytes_cases b
  conv => lhs; arg 1; rw [ht]
  rw [snap, takeBytes_append]

theorem positionAt_snap (t : Text) (b : Nat) : t.positionAt (t.snap b) = t.positionAt b := by
  rw [positionAt, takeBytes_snap, positionAt]

theorem positionAt_mono {b b' : Nat} (h : b ≤ b') (t : Text) :
    (t.positionAt b).before (t.positionAt b') :=
  Position.ofText_before (takeBytes_prefix_of_le h t)

/-- The positions of the ends of a span. -/
def positionsAt (t : Text) (s : Span) : Range := ⟨t.positionAt s.start, t.positionAt s.stop⟩

theorem positionsAt_holds {s : Span} {parts : List Span} (h : s.Holds parts) (t : Text) :
    (t.positionsAt s).Holds (parts.map t.positionsAt) := by
  refine ⟨fun q hq => ?_, ?_⟩
  · obtain ⟨u, hu, rfl⟩ := List.mem_map.1 hq
    obtain ⟨hstart, hordered, hstop⟩ := h.1 u hu
    exact ⟨positionAt_mono hstart t, positionAt_mono hordered t, positionAt_mono hstop t⟩
  · exact (List.isChain_map _).2 (h.2.imp fun u v huv => positionAt_mono huv t)

end Text

namespace Extent

variable {t : Text} {s u : Span}

/-- The order of the children of a node: by start, and then by end. -/
def InOrder (d e : Extent) : Prop :=
  d.bytes.start < e.bytes.start ∨ d.bytes.start = e.bytes.start ∧ d.bytes.stop ≤ e.bytes.stop

def Surrounds (e : Extent) (p : Position) : Prop := e.positions.Surrounds p

instance (e : Extent) (p : Position) : Decidable (e.Surrounds p) :=
  inferInstanceAs (Decidable (e.positions.Surrounds p))

theorem Surrounds.contains {e : Extent} {p : Position} (h : e.Surrounds p) : e.contains p :=
  Range.Surrounds.contains h

def Apart (d e : Extent) : Prop := d.bytes.Apart e.bytes

theorem Apart.symm {d e : Extent} (h : d.Apart e) : e.Apart d := Span.Apart.symm h

/-- Extents that lie one after the other in an extent, in bytes and in positions. -/
def Holds (e : Extent) (parts : List Extent) : Prop :=
  e.bytes.Holds (parts.map bytes) ∧ e.positions.Holds (parts.map positions)

theorem positions_ofSpan (t : Text) (s : Span) :
    (ofSpan t s).positions = t.positionsAt (ofSpan t s).bytes := by
  simp only [ofSpan, Text.positionsAt, Text.positionAt_snap]

/-- A span that ends where scalars start is kept as it is. -/
theorem ofSpan_of_boundary (hstart : t.Boundary s.start) (hstop : t.Boundary s.stop)
    (h : s.start ≤ s.stop) : ofSpan t s = ⟨t.positionsAt s, s⟩ := by
  have hle : s.stop ≤ t.byteLength := by
    rw [← hstop.takeBytes]
    exact t.snap_le_byteLength s.stop
  simp only [ofSpan, Nat.min_eq_left hle, Nat.min_eq_left h, Text.snap, hstart.takeBytes,
    hstop.takeBytes]
  rfl

theorem ofSpan_ordered (t : Text) (s : Span) :
    (ofSpan t s).bytes.start ≤ (ofSpan t s).bytes.stop :=
  Text.snap_mono (Nat.min_le_right _ _) t

theorem ofSpan_encloses (h : s.Encloses u) (t : Text) :
    (ofSpan t s).bytes.Encloses (ofSpan t u).bytes := by
  obtain ⟨hstart, hordered, hstop⟩ := h
  refine ⟨Text.snap_mono ?_ t, ofSpan_ordered t u, Text.snap_mono ?_ t⟩ <;> omega

theorem ofSpan_apart (h : s.Apart u) (hs : s.start ≤ s.stop) (hu : u.start ≤ u.stop) (t : Text) :
    (ofSpan t s).Apart (ofSpan t u) := by
  rcases h with h | h
  · refine .inl (Text.snap_mono ?_ t)
    omega
  · refine .inr (Text.snap_mono ?_ t)
    omega

theorem holds_of_bytes {e : Extent} {parts : List Extent}
    (hp : ∀ p ∈ e :: parts, p.positions = t.positionsAt p.bytes)
    (h : e.bytes.Holds (parts.map bytes)) : e.Holds parts := by
  have hh := Text.positionsAt_holds h t
  have hparts : parts.map positions = (parts.map bytes).map t.positionsAt := by
    rw [List.map_map]
    exact List.map_congr_left fun p hm => hp p (List.mem_cons_of_mem e hm)
  rw [← hp e List.mem_cons_self, ← hparts] at hh
  exact ⟨h, hh⟩

section

variable {d e : Extent} {p : Position} (hd : d.positions = t.positionsAt d.bytes)
  (he : e.positions = t.positionsAt e.bytes)

include hd he

theorem surrounds_of_encloses (h : d.bytes.Encloses e.bytes) (hp : e.Surrounds p) :
    d.Surrounds p := by
  rw [Surrounds, he] at hp
  rw [Surrounds, hd]
  exact ⟨Position.precedes_of_before (Text.positionAt_mono h.1 t) hp.1,
    hp.2.trans_before (Text.positionAt_mono h.2.2 t)⟩

/-- What comes first in an extent and contains a position inside the extent has it inside as well,
or starts with the extent and ends there. -/
theorem surrounds_or_ends (h : d.bytes.Encloses e.bytes) (horder : e.InOrder d)
    (hp : d.Surrounds p) (hc : e.contains p) :
    e.Surrounds p ∨ e.bytes.start = d.bytes.start ∧ e.positions.stop = p := by
  have hstart : e.bytes.start = d.bytes.start := by
    have hle := h.1
    rw [InOrder] at horder
    omega
  rcases Position.eq_or_precedes (Range.contains_iff.1 hc).2 with hstop | hstop
  · exact .inr ⟨hstart, hstop.symm⟩
  · refine .inl ⟨?_, hstop⟩
    have hs : e.positions.start = d.positions.start := by
      rw [hd, he, Text.positionsAt, Text.positionsAt, hstart]
    exact hs ▸ hp.1

theorem contains_of_ends (hp : d.Surrounds p) (hstart : e.bytes.start = d.bytes.start)
    (hstop : e.positions.stop = p) : e.contains p ∧ ¬ d.InOrder e := by
  have hs : e.positions.start = d.positions.start := by
    rw [hd, he, Text.positionsAt, Text.positionsAt, hstart]
  refine ⟨Range.contains_iff.2 ⟨hs ▸ hp.1.before, hstop ▸ Position.before_refl _⟩, fun ho => ?_⟩
  have hle : d.bytes.stop ≤ e.bytes.stop := by
    rw [InOrder] at ho
    omega
  have hbefore : d.positions.stop.before p := by
    rw [← hstop, hd, he]
    exact Text.positionAt_mono hle t
  exact Position.precedes_iff.1 hp.2 hbefore

end

end Extent

end ModuleLens
