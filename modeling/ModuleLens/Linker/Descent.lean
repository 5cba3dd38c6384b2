/-! Lists that get smaller one element at a time.  A list is lower than another one if it lacks one
of its elements or has a smaller element in its place.  There is no endless descent if there is
none among the elements. -/

namespace ModuleLens

/-- A list is lower than another one if one element is left out or made smaller. -/
inductive Lower {α : Type} (r : α → α → Prop) : List α → List α → Prop where
  | drop (a : α) (l : List α) : Lower r l (a :: l)
  | head {a b : α} (l : List α) (h : r a b) : Lower r (a :: l) (b :: l)
  | tail (a : α) {l m : List α} (h : Lower r l m) : Lower r (a :: l) (a :: m)

namespace Lower

variable {α : Type} {r : α → α → Prop}

theorem acc_cons {a : α} (ha : Acc r a) {l : List α} (hl : Acc (Lower r) l) :
    Acc (Lower r) (a :: l) := by
  induction ha generalizing l with
  | intro a _ iha =>
    induction hl with
    | intro l hl ihl =>
      refine ⟨_, fun m hm => ?_⟩
      cases hm with
      | drop => exact ⟨_, hl⟩
      | head _ h => exact iha _ h ⟨_, hl⟩
      | tail _ h => exact ihl _ h

theorem wellFounded (h : WellFounded r) : WellFounded (Lower r) := by
  refine ⟨fun l => ?_⟩
  induction l with
  | nil => exact ⟨_, fun _ h => nomatch h⟩
  | cons a l ih => exact acc_cons (h.apply a) ih

theorem eraseIdx {l : List α} {i : Nat} (h : i < l.length) : Lower r (l.eraseIdx i) l := by
  induction l generalizing i with
  | nil => exact absurd h (by simp)
  | cons a l ih =>
    cases i with
    | zero => exact .drop a l
    | succ i => exact .tail a (ih (by simpa using h))

theorem set {l : List α} {i : Nat} {a : α} (h : i < l.length) (ha : r a (l.get ⟨i, h⟩)) :
    Lower r (l.set i a) l := by
  induction l generalizing i with
  | nil => exact absurd h (by simp)
  | cons b l ih =>
    cases i with
    | zero => exact .head l ha
    | succ i => exact .tail b (ih (by simpa using h) ha)

end Lower

end ModuleLens
