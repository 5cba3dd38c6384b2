/-! First in, first out.  A queue keeps its oldest elements in order and its latest ones in reverse,
so that both ends are at hand.  What it holds is `Fifo.toList`, the oldest element first. -/

namespace ModuleLens

structure Fifo (α : Type) where
  /-- Elements at the front, the oldest first. -/
  front : List α := []
  /-- Elements at the back, the latest first. -/
  back : List α := []

namespace Fifo

variable {α : Type}

def toList (q : Fifo α) : List α := q.front ++ q.back.reverse

def push (q : Fifo α) (a : α) : Fifo α := { q with back := a :: q.back }

def pop? (q : Fifo α) : Option (α × Fifo α) :=
  match q.front with
  | a :: front => some (a, { q with front })
  | [] =>
    match q.back.reverse with
    | a :: front => some (a, { front })
    | [] => none

def size (q : Fifo α) : Nat := q.front.length + q.back.length

theorem toList_push (q : Fifo α) (a : α) : (q.push a).toList = q.toList ++ [a] := by
  simp [toList, push]

theorem length_toList (q : Fifo α) : q.toList.length = q.size := by simp [toList, size]

theorem pop?_eq_none_iff (q : Fifo α) : q.pop? = none ↔ q.toList = [] := by
  obtain ⟨front, back⟩ := q
  cases front with
  | cons a front => simp [pop?, toList]
  | nil =>
    cases h : back.reverse with
    | cons a rest => simp [pop?, toList, h]
    | nil => simp [pop?, toList, h]

theorem toList_of_pop? {q r : Fifo α} {a : α} (h : q.pop? = some (a, r)) :
    q.toList = a :: r.toList := by
  obtain ⟨front, back⟩ := q
  cases front with
  | cons b front =>
    cases h
    rfl
  | nil =>
    cases hb : back.reverse with
    | cons b rest =>
      rw [pop?] at h
      simp only [hb] at h
      cases h
      simp [toList, hb]
    | nil => simp [pop?, hb] at h

end Fifo

end ModuleLens
