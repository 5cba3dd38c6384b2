import ModuleLens.Node
import Std.Data.TreeSet

/-! What can be reached from a node: everything below it, the modules behind the imports below it,
and the modules behind theirs.  Modules are visited level by level, each once, however many imports
lead to it.  The visit ends because every import leads to a module of smaller height. -/

namespace ModuleLens

namespace Node

mutual

def under (rest : List Node) : Node → List Node
  | mk _ _ _ children => underAll rest children

def underAll (rest : List Node) : List Node → List Node
  | [] => rest
  | c :: cs => c :: under (underAll rest cs) c

end

def descendants (n : Node) : List Node := n.under []

mutual

theorem under_eq : ∀ (rest : List Node) (n : Node), under rest n = under [] n ++ rest
  | rest, mk _ _ _ children => by
    rw [under, under]
    exact underAll_eq rest children

theorem underAll_eq : ∀ (rest l : List Node), underAll rest l = underAll [] l ++ rest
  | _, [] => rfl
  | rest, c :: cs => by
    rw [underAll, underAll, under_eq (underAll rest cs), under_eq (underAll [] cs),
      underAll_eq rest cs]
    simp

end

theorem descendants_mk (info : NodeInfo) (label : Label) (outcome : Option (Outcome Node))
    (children : List Node) :
    descendants (mk info label outcome children) = underAll [] children := rfl

theorem underAll_cons (c : Node) (cs : List Node) :
    underAll [] (c :: cs) = c :: descendants c ++ underAll [] cs := by
  rw [underAll, under_eq]
  rfl

mutual

def findBelow? (p : Node → Bool) : Node → Option Node
  | mk _ _ _ children => findIn? p children

/-- The first node among nodes and everything below them that satisfies a condition. -/
def findIn? (p : Node → Bool) : List Node → Option Node
  | [] => none
  | c :: cs =>
    if p c then some c
    else
      match findBelow? p c with
      | some found => some found
      | none => findIn? p cs

end

mutual

theorem findBelow?_eq (p : Node → Bool) : ∀ n : Node, findBelow? p n = n.descendants.find? p
  | mk _ _ _ children => by
    rw [findBelow?, descendants_mk]
    exact findIn?_eq p children

theorem findIn?_eq (p : Node → Bool) : ∀ l : List Node, findIn? p l = (underAll [] l).find? p
  | [] => rfl
  | c :: cs => by
    rw [findIn?, underAll_cons, findBelow?_eq p c, findIn?_eq p cs]
    by_cases h : p c
    · simp [h]
    · cases hd : c.descendants.find? p <;> simp [h, hd]

end

def targets (module : Node) : List Node := module.descendants.filterMap target?

mutual

/-- How many imports can be followed one after the other from a node. -/
def height : Node → Nat
  | mk _ _ outcome children => max (outcomeHeight outcome) (heightAll children)

def outcomeHeight : Option (Outcome Node) → Nat
  | none => 0
  | some outcome => targetHeight outcome

def targetHeight : Outcome Node → Nat
  | .resolved module => height module + 1
  | .notFound => 0
  | .tooDeep _ => 0
  | .timedOut => 0

def heightAll : List Node → Nat
  | [] => 0
  | c :: cs => max (height c) (heightAll cs)

end

mutual

theorem height_le_of_mem_descendants :
    ∀ (n : Node) {d : Node}, d ∈ descendants n → height d ≤ height n
  | mk _ _ _ children, d, h => by
    have hc := height_le_of_mem_underAll children h
    rw [height]
    omega

theorem height_le_of_mem_underAll :
    ∀ (l : List Node) {d : Node}, d ∈ underAll [] l → height d ≤ heightAll l
  | [], d, h => nomatch h
  | c :: cs, d, h => by
    rw [heightAll]
    simp only [underAll_cons, List.cons_append, List.mem_cons, List.mem_append] at h
    rcases h with rfl | h | h
    · omega
    · have hc := height_le_of_mem_descendants c h
      omega
    · have hc := height_le_of_mem_underAll cs h
      omega

end

theorem height_lt_of_target? {n t : Node} (h : n.target? = some t) : height t < height n := by
  obtain ⟨info, label, outcome, children⟩ := n
  simp only [target?, Node.outcome] at h
  split at h
  · cases h
    rw [height, outcomeHeight, targetHeight]
    omega
  · cases h

theorem height_lt_of_mem_targets {n t : Node} (h : t ∈ n.targets) : height t < height n := by
  obtain ⟨d, hd, ht⟩ := List.mem_filterMap.1 h
  exact Nat.lt_of_lt_of_le (height_lt_of_target? ht) (height_le_of_mem_descendants n hd)

def levels : List Node → Nat
  | [] => 0
  | m :: ms => max (height m + 1) (levels ms)

theorem height_lt_levels {m : Node} {ms : List Node} (h : m ∈ ms) : height m < levels ms := by
  induction ms with
  | nil => exact nomatch h
  | cons a ms ih =>
    rw [levels]
    rcases List.mem_cons.1 h with rfl | h
    · omega
    · have hm := ih h
      omega

theorem levels_le {ms : List Node} {k : Nat} (h : ∀ m ∈ ms, height m < k) : levels ms ≤ k := by
  induction ms with
  | nil => exact Nat.zero_le k
  | cons a ms ih =>
    have ha := h a List.mem_cons_self
    have hm := ih fun m hm => h m (List.mem_cons_of_mem a hm)
    rw [levels]
    omega

abbrev Seen := Std.TreeSet NodeId NodeId.order

/-- The modules of a level that were not seen before, each once, and what is seen after them. -/
def fresh (seen : Seen) : List Node → List Node × Seen
  | [] => ([], seen)
  | m :: ms =>
    if seen.contains m.id then fresh seen ms
    else
      let (new, seen) := fresh (seen.insert m.id) ms
      (m :: new, seen)

theorem mem_of_mem_fresh {seen : Seen} {level : List Node} {m : Node}
    (h : m ∈ (fresh seen level).1) : m ∈ level := by
  induction level generalizing seen with
  | nil => exact h
  | cons a level ih =>
    rw [fresh] at h
    split at h
    · exact List.mem_cons_of_mem a (ih h)
    · rcases List.mem_cons.1 h with rfl | h
      · exact List.mem_cons_self
      · exact List.mem_cons_of_mem a (ih h)

theorem levels_targets_lt {seen next : Seen} {level new : List Node} {m : Node}
    (h : fresh seen level = (m :: new, next)) :
    levels ((m :: new).flatMap targets) < levels level := by
  have hmem {n : Node} (hn : n ∈ m :: new) : height n < levels level :=
    height_lt_levels (mem_of_mem_fresh (h ▸ hn : n ∈ (fresh seen level).1))
  have hm := hmem List.mem_cons_self
  have hl : levels ((m :: new).flatMap targets) ≤ levels level - 1 := by
    refine levels_le fun t ht => ?_
    obtain ⟨n, hn, ht⟩ := List.mem_flatMap.1 ht
    have h1 := hmem hn
    have h2 := height_lt_of_mem_targets ht
    omega
  omega

/-- The modules that were not seen before and can be reached from those of a level, level by
level. -/
def reachFrom (seen : Seen) (level : List Node) : List Node :=
  match h : fresh seen level with
  | ([], _) => []
  | (m :: new, next) =>
    have : levels ((m :: new).flatMap targets) < levels level := levels_targets_lt h
    m :: new ++ reachFrom next ((m :: new).flatMap targets)
termination_by levels level

/-- Some modules and those that imports lead to from them, nearer ones first, each once. -/
def reach (modules : List Node) : List Node := reachFrom {} modules

end Node

end ModuleLens
