import ModuleLens.Delta

/-! What a delta says.  The delta between two texts describes how the one becomes the other: they
share what stands before and after one stretch, and its ends are named in bytes and as points of
the text that they lie in. -/

namespace ModuleLens

namespace Text

theorem takeBytes_zero (t : Text) : takeBytes t 0 = [] := by
  cases t with
  | nil => rfl
  | cons c t =>
    have hc : ¬ c.utf8Size ≤ 0 := by
      have := c.utf8Size_pos
      omega
    rw [takeBytes, if_neg hc]

theorem takeBytes_append (s t : Text) : takeBytes (s ++ t) s.byteLength = s := by
  induction s with
  | nil => exact takeBytes_zero t
  | cons c s ih =>
    have hc : c.utf8Size ≤ c.utf8Size + byteLength s := by omega
    simp only [List.cons_append, byteLength_cons, takeBytes, hc, if_true, Nat.add_sub_cancel_left]
    rw [ih]

theorem commonPrefix_left (s t : Text) : commonPrefix s t <+: s := by
  fun_induction commonPrefix s t with
  | case1 c s t ih => exact List.cons_prefix_cons.2 ⟨rfl, ih⟩
  | case2 => exact List.nil_prefix
  | case3 => exact List.nil_prefix

theorem commonPrefix_right (s t : Text) : commonPrefix s t <+: t := by
  fun_induction commonPrefix s t with
  | case1 c s t ih => exact List.cons_prefix_cons.2 ⟨rfl, ih⟩
  | case2 => exact List.nil_prefix
  | case3 => exact List.nil_prefix

theorem take_append_of_reversed {s tail : Text} (h : tail <+: s.reverse) :
    s.take (s.length - tail.length) ++ tail.reverse = s := by
  obtain ⟨rest, hr⟩ := h
  have hs : s = rest.reverse ++ tail.reverse := by
    rw [← List.reverse_append, hr, List.reverse_reverse]
  have hl : s.length - tail.length = rest.reverse.length := by
    rw [hs]
    simp
  rw [hl]
  conv => lhs; arg 1; rw [hs]
  rw [List.take_left, ← hs]

end Text

namespace Point

theorem after_append (p : Point) (s t : Text) : p.after (s ++ t) = (p.after s).after t :=
  List.foldl_append

theorem ofOffset_append (s t : Text) : ofOffset (s ++ t) s.byteLength = after ⟨0, 0⟩ s := by
  have hmin : min s.byteLength (Text.byteLength (s ++ t)) = s.byteLength := by
    rw [Text.byteLength_append]
    omega
  simp [ofOffset, hmin, Text.snap, Text.takeBytes_append]

end Point

namespace Delta

/-- A delta describes how a text becomes another one: a stretch of the one is replaced by a stretch
of the other. -/
def Describes (d : Delta) (old new : Text) : Prop :=
  ∃ before removed inserted rest : Text,
    old = before ++ removed ++ rest ∧ new = before ++ inserted ++ rest ∧
    d.start = before.byteLength ∧ d.oldEnd = Text.byteLength (before ++ removed) ∧
    d.newEnd = Text.byteLength (before ++ inserted) ∧ d.startPoint = .ofOffset old d.start ∧
    d.oldEndPoint = .ofOffset old d.oldEnd ∧ d.newEndPoint = .ofOffset new d.newEnd

theorem eq_of_between {old new : Text} (h : between old new = none) : old = new := by
  rw [between] at h
  split at h
  · assumption
  · cases h

/-- The delta of a stretch with what stands before and after it. -/
def ofParts (before removed inserted rest : Text) : Delta :=
  let startPoint := Point.ofOffset (before ++ removed ++ rest) before.byteLength
  { start := before.byteLength
    oldEnd := before.byteLength + removed.byteLength
    newEnd := before.byteLength + inserted.byteLength
    startPoint
    oldEndPoint := startPoint.after removed
    newEndPoint := startPoint.after inserted }

theorem ofParts_describes (before removed inserted rest : Text) :
    (ofParts before removed inserted rest).Describes (before ++ removed ++ rest)
      (before ++ inserted ++ rest) := by
  have hstart : Point.ofOffset (before ++ removed ++ rest) before.byteLength =
      Point.after ⟨0, 0⟩ before := by
    rw [List.append_assoc, Point.ofOffset_append]
  refine ⟨before, removed, inserted, rest, rfl, rfl, rfl, (Text.byteLength_append _ _).symm,
    (Text.byteLength_append _ _).symm, rfl, ?_, ?_⟩
  · dsimp only [ofParts]
    rw [hstart, ← Text.byteLength_append, Point.ofOffset_append, Point.after_append]
  · dsimp only [ofParts]
    rw [hstart, ← Text.byteLength_append, Point.ofOffset_append, Point.after_append]

/-- What two texts share at their ends.  It is looked for in what the shared beginning leaves, so the
two never overlap. -/
def sharedTail (old new : Text) : Text :=
  let shared := old.commonPrefix new
  (Text.commonPrefix (old.drop shared.length).reverse (new.drop shared.length).reverse).reverse

theorem exists_parts (old new : Text) :
    ∃ removed inserted, old.commonPrefix new ++ removed ++ sharedTail old new = old ∧
      old.commonPrefix new ++ inserted ++ sharedTail old new = new ∧
      (old ≠ new →
        between old new =
          some (ofParts (old.commonPrefix new) removed inserted (sharedTail old new))) := by
  let shared := old.commonPrefix new
  let tail := Text.commonPrefix (old.drop shared.length).reverse (new.drop shared.length).reverse
  let removed := (old.drop shared.length).take ((old.drop shared.length).length - tail.length)
  let inserted := (new.drop shared.length).take ((new.drop shared.length).length - tail.length)
  have hold : shared ++ removed ++ tail.reverse = old := by
    rw [List.append_assoc, Text.take_append_of_reversed (Text.commonPrefix_left _ _)]
    exact List.prefix_iff_eq_append.1 (Text.commonPrefix_left old new)
  have hnew : shared ++ inserted ++ tail.reverse = new := by
    rw [List.append_assoc, Text.take_append_of_reversed (Text.commonPrefix_right _ _)]
    exact List.prefix_iff_eq_append.1 (Text.commonPrefix_right old new)
  refine ⟨removed, inserted, hold, hnew, fun hne => ?_⟩
  rw [between, if_neg hne]
  simp only [ofParts]
  rw [show old.commonPrefix new ++ removed ++ sharedTail old new = old from hold]

theorem between_describes {old new : Text} {d : Delta} (h : between old new = some d) :
    d.Describes old new := by
  have hne : old ≠ new := by
    rintro rfl
    simp [between] at h
  obtain ⟨removed, inserted, hold, hnew, hd⟩ := exists_parts old new
  have hh := ofParts_describes (old.commonPrefix new) removed inserted (sharedTail old new)
  rw [hold, hnew] at hh
  cases (hd hne).symm.trans h
  exact hh

/-- Deltas that lead from one text to another, each from where the last one came to. -/
def Lead : List Delta → Text → Text → Prop
  | [], old, new => old = new
  | d :: ds, old, new => ∃ next, d.Describes old next ∧ Lead ds next new

theorem Lead.between {old next new : Text} {ds : List Delta} (h : Lead ds next new) :
    Lead ((Delta.between old next).toList ++ ds) old new := by
  cases hb : Delta.between old next with
  | none => exact eq_of_between hb ▸ h
  | some d => exact ⟨next, between_describes hb, h⟩

end Delta

end ModuleLens
