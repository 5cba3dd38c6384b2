import Mathlib.Logic.Relation
import ModuleLens.Node.Navigation

/-! Chains of imports.  Visiting modules level by level, each identity once, finds exactly the
modules that a chain of imports leads to, provided that identities tell those modules apart. -/

namespace ModuleLens

instance : Std.LawfulEqCmp NodeId.order where
  eq_of_compare {a b} h := by
    simp only [NodeId.order, compareLex, Ordering.then_eq_eq, compareOn] at h
    obtain ⟨hb, hi⟩ := h
    obtain ⟨build, index⟩ := a
    obtain ⟨build', index'⟩ := b
    have hbb : build = build' := Std.LawfulEqOrd.eq_of_compare hb
    have hii : index = index' := Std.LawfulEqOrd.eq_of_compare hi
    rw [hbb, hii]

namespace Node

def Imports (a b : Node) : Prop := b ∈ a.targets

abbrev Reaches : Node → Node → Prop := Relation.ReflTransGen Imports

/-- Modules that imports do not lead out of and that identities tell apart. -/
structure Closed (p : Node → Prop) : Prop where
  targets : ∀ {a b}, p a → Imports a b → p b
  told : ∀ {a b}, p a → p b → a.id = b.id → a = b

variable {p : Node → Prop}

theorem Closed.reaches (h : Closed p) {a b : Node} (ha : p a) (hr : Reaches a b) : p b := by
  induction hr with
  | refl => exact ha
  | tail _ hs ih => exact h.targets ih hs

theorem contains_fresh {seen next : Seen} {level new : List Node}
    (h : fresh seen level = (new, next)) {i : NodeId} :
    next.contains i ↔ seen.contains i ∨ ∃ m ∈ new, m.id = i := by
  induction level generalizing seen next new with
  | nil =>
    cases h
    simp
  | cons a level ih =>
    rw [fresh] at h
    split at h
    · exact ih h
    · obtain ⟨new', next', hf⟩ : ∃ new' next', fresh (seen.insert a.id) level = (new', next') :=
        ⟨_, _, rfl⟩
      rw [hf] at h
      cases h
      have hc : NodeId.order a.id i = .eq ↔ a.id = i :=
        ⟨Std.LawfulEqCmp.eq_of_compare, fun h => h ▸ Std.ReflCmp.compare_self⟩
      simp only [ih hf, Std.TreeSet.contains_insert, Bool.or_eq_true, beq_iff_eq, hc,
        List.mem_cons, exists_eq_or_imp]
      grind

theorem contains_of_mem_level {seen next : Seen} {level new : List Node}
    (h : fresh seen level = (new, next)) {m : Node} (hm : m ∈ level) : next.contains m.id := by
  induction level generalizing seen next new with
  | nil => cases hm
  | cons a level ih =>
    rw [fresh] at h
    split at h
    · next hs =>
      rcases List.mem_cons.1 hm with rfl | hm
      · exact (contains_fresh h).2 (.inl hs)
      · exact ih h hm
    · obtain ⟨new', next', hf⟩ : ∃ new' next', fresh (seen.insert a.id) level = (new', next') :=
        ⟨_, _, rfl⟩
      rw [hf] at h
      cases h
      rcases List.mem_cons.1 hm with rfl | hm
      · exact (contains_fresh hf).2 (.inl (by simp))
      · exact ih hf hm

theorem nodup_fresh {seen next : Seen} {level new : List Node}
    (h : fresh seen level = (new, next)) :
    (new.map Node.id).Nodup ∧ ∀ m ∈ new, ¬ seen.contains m.id := by
  induction level generalizing seen next new with
  | nil =>
    cases h
    exact ⟨.nil, nofun⟩
  | cons a level ih =>
    rw [fresh] at h
    split at h
    · exact ih h
    · next hs =>
      obtain ⟨new', next', hf⟩ : ∃ new' next', fresh (seen.insert a.id) level = (new', next') :=
        ⟨_, _, rfl⟩
      rw [hf] at h
      cases h
      obtain ⟨hnodup, hunseen⟩ := ih hf
      have hnew (m : Node) (hm : m ∈ new') : m.id ≠ a.id ∧ ¬ seen.contains m.id := by
        have hh := hunseen m hm
        rw [Std.TreeSet.contains_insert, Bool.or_eq_true, not_or] at hh
        refine ⟨fun hi => hh.1 ?_, hh.2⟩
        rw [hi, beq_iff_eq]
        exact Std.ReflCmp.compare_self
      refine ⟨List.nodup_cons.2 ⟨fun hm => ?_, hnodup⟩,
        List.forall_mem_cons.2 ⟨hs, fun m hm => (hnew m hm).2⟩⟩
      obtain ⟨m, hm, hi⟩ := List.mem_map.1 hm
      exact (hnew m hm).1 hi

theorem mem_level_of_fresh {seen next : Seen} {level new : List Node}
    (h : fresh seen level = (new, next)) {m : Node} (hm : m ∈ new) : m ∈ level := by
  have hh : m ∈ (fresh seen level).1 := by rwa [h]
  exact mem_of_mem_fresh hh

theorem reaches_of_mem_reachFrom {seen : Seen} {level : List Node} {m : Node}
    (h : m ∈ reachFrom seen level) : ∃ a ∈ level, Reaches a m := by
  fun_induction reachFrom seen level with
  | case1 => cases h
  | case2 seen level n new next hf _ ih =>
    rcases List.mem_append.1 h with h | h
    · exact ⟨m, mem_level_of_fresh hf h, .refl⟩
    · obtain ⟨b, hb, hr⟩ := ih h
      obtain ⟨a, ha, hab⟩ := List.mem_flatMap.1 hb
      exact ⟨a, mem_level_of_fresh hf ha, .head hab hr⟩

theorem nodup_reachFrom (seen : Seen) (level : List Node) :
    ((reachFrom seen level).map Node.id).Nodup ∧
      ∀ m ∈ reachFrom seen level, ¬ seen.contains m.id := by
  fun_induction reachFrom seen level with
  | case1 => exact ⟨.nil, nofun⟩
  | case2 seen level n new next hf _ ih =>
    obtain ⟨hnodup, hunseen⟩ := nodup_fresh hf
    refine ⟨?_, fun m hm => ?_⟩
    · rw [List.map_append, List.nodup_append]
      refine ⟨hnodup, ih.1, ?_⟩
      rintro _ hi _ hj rfl
      obtain ⟨a, ha, hai⟩ := List.mem_map.1 hi
      obtain ⟨b, hb, hbi⟩ := List.mem_map.1 hj
      exact ih.2 b hb ((contains_fresh hf).2 (.inr ⟨a, ha, hai.trans hbi.symm⟩))
    · rcases List.mem_append.1 hm with hm | hm
      · exact hunseen m hm
      · exact fun hs => ih.2 m hm ((contains_fresh hf).2 (.inl hs))

/-- What a visit has left to do: imports of modules that were seen lead to modules that were seen
or are next. -/
def Pending (p : Node → Prop) (seen : Seen) (level : List Node) : Prop :=
  ∀ a, p a → seen.contains a.id → ∀ b ∈ a.targets, seen.contains b.id ∨ b ∈ level

theorem Pending.next (hp : Closed p) {seen next : Seen} {level new : List Node}
    (hl : ∀ a ∈ level, p a) (h : Pending p seen level) (hf : fresh seen level = (new, next)) :
    Pending p next (new.flatMap Node.targets) := by
  intro a ha hs b hb
  rcases (contains_fresh hf).1 hs with hs | ⟨m, hm, hi⟩
  · rcases h a ha hs b hb with hs | hb
    · exact .inl ((contains_fresh hf).2 (.inl hs))
    · exact .inl (contains_of_mem_level hf hb)
  · have hma : m = a := hp.told (hl m (mem_level_of_fresh hf hm)) ha hi
    subst hma
    exact .inr (List.mem_flatMap.2 ⟨m, hm, hb⟩)

theorem Pending.reaches (hp : Closed p) {seen : Seen} {level : List Node}
    (h : Pending p seen level) {a m : Node} (ha : p a) (hs : seen.contains a.id)
    (hr : Reaches a m) : seen.contains m.id ∨ ∃ b ∈ level, Reaches b m := by
  induction hr with
  | refl => exact .inl hs
  | @tail m n hm hmn ih =>
    rcases ih with hs | ⟨b, hb, hr⟩
    · rcases h m (hp.reaches ha hm) hs n hmn with hs | hn
      · exact .inl hs
      · exact .inr ⟨n, hn, .refl⟩
    · exact .inr ⟨b, hb, hr.tail hmn⟩

theorem mem_reachFrom (hp : Closed p) {seen : Seen} {level : List Node} (hl : ∀ a ∈ level, p a)
    (h : Pending p seen level) {a m : Node} (ha : a ∈ level) (hr : Reaches a m) :
    seen.contains m.id ∨ m ∈ reachFrom seen level := by
  fun_induction reachFrom seen level generalizing a with
  | case1 seen level next hf =>
    -- everything on the level was seen, so no chain leaves what was seen
    have hn := h.next hp hl hf
    rcases hn.reaches hp (hl a ha) (contains_of_mem_level hf ha) hr with hm | ⟨b, hb, _⟩
    · simpa using (contains_fresh hf).1 hm
    · simp at hb
  | case2 seen level n new next hf _ ih =>
    have hn := h.next hp hl hf
    have hnew (a : Node) (ha : a ∈ n :: new) : p a := hl a (mem_level_of_fresh hf ha)
    have hp' (b : Node) (hb : b ∈ (n :: new).flatMap Node.targets) : p b := by
      obtain ⟨a, ha, hab⟩ := List.mem_flatMap.1 hb
      exact hp.targets (hnew a ha) hab
    have hcase : next.contains m.id ∨ m ∈ reachFrom next ((n :: new).flatMap Node.targets) := by
      rcases hn.reaches hp (hl a ha) (contains_of_mem_level hf ha) hr with hm | ⟨b, hb, hbm⟩
      · exact .inl hm
      · exact ih hp' hn hb hbm
    rcases hcase with hm | hm
    · rcases (contains_fresh hf).1 hm with hm | ⟨c, hc, hi⟩
      · exact .inl hm
      · have hcm : c = m := hp.told (hnew c hc) (hp.reaches (hl a ha) hr) hi
        exact .inr (List.mem_append_left _ (hcm ▸ hc))
    · exact .inr (List.mem_append_right _ hm)

/-- The modules that are visited from some modules are those that chains of imports lead to. -/
theorem mem_reach (hp : Closed p) {modules : List Node} (hl : ∀ a ∈ modules, p a) {m : Node} :
    m ∈ reach modules ↔ ∃ a ∈ modules, Reaches a m := by
  refine ⟨reaches_of_mem_reachFrom, fun ⟨a, ha, hr⟩ => ?_⟩
  have hs : Pending p {} modules := fun _ _ h => by simp at h
  rcases mem_reachFrom hp hl hs ha hr with h | h
  · simp at h
  · exact h

theorem nodup_reach (modules : List Node) : ((reach modules).map Node.id).Nodup :=
  (nodup_reachFrom {} modules).1

theorem leadsTo_iff (hp : Closed p) {n : Node} (hn : ∀ t ∈ n.targets, p t) {uri : Uri} :
    n.leadsTo uri ↔ ∃ t, Imports n t ∧ ∃ m, Reaches t m ∧ m.uri = uri := by
  simp only [leadsTo, List.any_eq_true, decide_eq_true_eq, mem_reach hp hn]
  constructor
  · rintro ⟨m, ⟨t, ht, hr⟩, hu⟩
    exact ⟨t, ht, m, hr, hu⟩
  · rintro ⟨t, ht, m, hr, hu⟩
    exact ⟨m, ⟨t, ht, hr⟩, hu⟩

end Node

end ModuleLens
