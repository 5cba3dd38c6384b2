/-! Sorting by merging.  A list is cut into runs that are in order already, and runs are merged two
by two, those of equal weight first, as a counter in base two carries.  The sort is stable, and a
list that is in order already is gone through once. -/

namespace ModuleLens

variable {α : Type}

/-- Puts an element into its place in a list; `rest` merges what comes after it. -/
def mergeOne (le : α → α → Bool) (a : α) (rest : List α → List α) : List α → List α
  | [] => a :: rest []
  | b :: bs => if le a b then a :: rest (b :: bs) else b :: mergeOne le a rest bs

/-- Two lists in order as one; of equal elements those of the first list come first. -/
def mergeBy (le : α → α → Bool) : List α → List α → List α
  | [] => id
  | a :: as => mergeOne le a (mergeBy le as)

def runsOf (le : α → α → Bool) : List α → List (List α)
  | [] => []
  | a :: as =>
    match runsOf le as with
    | (b :: run) :: runs => if le a b then (a :: b :: run) :: runs else [a] :: (b :: run) :: runs
    | runs => [a] :: runs

/-- Adds a run in front of those that are counted: place `n` holds the merge of two to the `n` runs
or nothing. -/
def carry (le : α → α → Bool) (run : List α) : List (Option (List α)) → List (Option (List α))
  | [] => [some run]
  | none :: places => some run :: places
  | some next :: places => none :: carry le (mergeBy le run next) places

def collapse (le : α → α → Bool) : List (Option (List α)) → List α
  | [] => []
  | none :: places => collapse le places
  | some run :: places => mergeBy le run (collapse le places)

/-- The elements in order; equal ones keep theirs. -/
def sortBy (le : α → α → Bool) (l : List α) : List α :=
  collapse le ((runsOf le l).foldr (carry le) [])

end ModuleLens
