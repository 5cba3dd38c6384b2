import ModuleLens.Sorting

/-! Sorting only moves elements: what is sorted is a permutation of what was given.  By an order
that is transitive and total it is in order: runs are, merging two lists in order gives one, and
nothing else is done to them.  What keeps the order can be done before or after sorting. -/

namespace ModuleLens

variable {α : Type}

theorem mergeOne_perm {le : α → α → Bool} {a : α} {as : List α} {rest : List α → List α}
    (h : ∀ bs, (rest bs).Perm (as ++ bs)) (bs : List α) :
    (mergeOne le a rest bs).Perm (a :: as ++ bs) := by
  induction bs with
  | nil => exact (h []).cons a
  | cons b bs ih =>
    rw [mergeOne]
    split
    · exact (h (b :: bs)).cons a
    · exact (ih.cons b).trans List.perm_middle.symm

theorem mergeBy_perm (le : α → α → Bool) (as bs : List α) :
    (mergeBy le as bs).Perm (as ++ bs) := by
  induction as generalizing bs with
  | nil => exact .refl _
  | cons a as ih => exact mergeOne_perm ih bs

theorem flatten_runsOf (le : α → α → Bool) (l : List α) : (runsOf le l).flatten = l := by
  induction l with
  | nil => rfl
  | cons a as ih =>
    rw [runsOf]
    split
    · next b run runs hr =>
      rw [hr] at ih
      split <;> simpa using ih
    · simpa using ih

/-- All that is counted, place by place. -/
def counted (places : List (Option (List α))) : List α := places.flatMap fun p => p.getD []

theorem counted_carry (le : α → α → Bool) (run : List α) (places : List (Option (List α))) :
    (counted (carry le run places)).Perm (run ++ counted places) := by
  induction places generalizing run with
  | nil => simp [carry, counted]
  | cons p places ih =>
    cases p with
    | none => simp [carry, counted]
    | some next =>
      have hh := (ih (mergeBy le run next)).trans ((mergeBy_perm le run next).append_right _)
      simpa [carry, counted] using hh

theorem collapse_perm (le : α → α → Bool) (places : List (Option (List α))) :
    (collapse le places).Perm (counted places) := by
  induction places with
  | nil => exact .refl _
  | cons p places ih =>
    cases p with
    | none => simpa [collapse, counted] using ih
    | some run =>
      have hh := (mergeBy_perm le run (collapse le places)).trans (ih.append_left run)
      simpa [collapse, counted] using hh

theorem sortBy_perm (le : α → α → Bool) (l : List α) : (sortBy le l).Perm l := by
  have hc (runs : List (List α)) : (counted (runs.foldr (carry le) [])).Perm runs.flatten := by
    induction runs with
    | nil => exact .refl _
    | cons run runs ih => exact (counted_carry le run _).trans (ih.append_left run)
  have hh := (collapse_perm le ((runsOf le l).foldr (carry le) [])).trans (hc (runsOf le l))
  rwa [flatten_runsOf] at hh

theorem pairwise_runsOf {le : α → α → Bool} (htrans : ∀ a b c, le a b → le b c → le a c)
    (l : List α) : ∀ run ∈ runsOf le l, run.Pairwise (le · ·) := by
  induction l with
  | nil => exact fun _ h => nomatch h
  | cons a as ih =>
    rw [runsOf]
    split
    · next b run runs hr =>
      rw [hr] at ih
      have hrun := ih (b :: run) List.mem_cons_self
      split
      · next hab =>
        refine List.forall_mem_cons.2 ⟨List.pairwise_cons.2 ⟨fun x hx => ?_, hrun⟩,
          fun r h => ih r (List.mem_cons_of_mem _ h)⟩
        rcases List.mem_cons.1 hx with rfl | hx
        · exact hab
        · exact htrans a b x hab ((List.pairwise_cons.1 hrun).1 x hx)
      · exact List.forall_mem_cons.2 ⟨List.pairwise_singleton _ a, ih⟩
    · exact List.forall_mem_cons.2 ⟨List.pairwise_singleton _ a, ih⟩

section InOrder

variable {le : α → α → Bool} (htrans : ∀ a b c, le a b → le b c → le a c)
  (htotal : ∀ a b, le a b ∨ le b a)

include htrans htotal

theorem pairwise_mergeOne {a : α} {as bs : List α} (ha : ∀ x ∈ as, le a x)
    (has : ∀ l : List α, l.Pairwise (le · ·) → (mergeBy le as l).Pairwise (le · ·))
    (hbs : bs.Pairwise (le · ·)) : (mergeOne le a (mergeBy le as) bs).Pairwise (le · ·) := by
  induction bs with
  | nil =>
    refine List.pairwise_cons.2 ⟨fun x hx => ha x ?_, has [] .nil⟩
    simpa using (mergeBy_perm le as []).mem_iff.1 hx
  | cons b bs ih =>
    have hb := List.pairwise_cons.1 hbs
    rw [mergeOne]
    split
    · next hab =>
      refine List.pairwise_cons.2 ⟨fun x hx => ?_, has _ hbs⟩
      rcases List.mem_append.1 ((mergeBy_perm le as (b :: bs)).mem_iff.1 hx) with hx | hx
      · exact ha x hx
      · rcases List.mem_cons.1 hx with rfl | hx
        · exact hab
        · exact htrans a b x hab (hb.1 x hx)
    · next hab =>
      have hba := (htotal a b).resolve_left hab
      refine List.pairwise_cons.2 ⟨fun x hx => ?_, ih hb.2⟩
      have hm := (mergeOne_perm (mergeBy_perm le as) bs).mem_iff.1 hx
      rw [List.cons_append, List.mem_cons, List.mem_append] at hm
      rcases hm with rfl | hx | hx
      · exact hba
      · exact htrans b a x hba (ha x hx)
      · exact hb.1 x hx

theorem pairwise_mergeBy {as bs : List α} (ha : as.Pairwise (le · ·)) (hb : bs.Pairwise (le · ·)) :
    (mergeBy le as bs).Pairwise (le · ·) := by
  induction as generalizing bs with
  | nil => exact hb
  | cons a as ih =>
    have ha := List.pairwise_cons.1 ha
    exact pairwise_mergeOne htrans htotal ha.1 (fun l hl => ih ha.2 hl) hb

theorem pairwise_carry {run : List α} {places : List (Option (List α))}
    (hr : run.Pairwise (le · ·)) (hp : ∀ r, some r ∈ places → r.Pairwise (le · ·)) :
    ∀ r, some r ∈ carry le run places → r.Pairwise (le · ·) := by
  induction places generalizing run with
  | nil =>
    intro r h
    cases List.mem_singleton.1 h
    exact hr
  | cons p places ih =>
    have hrest (r : List α) (h : some r ∈ places) := hp r (List.mem_cons_of_mem p h)
    intro r h
    cases p with
    | none =>
      rcases List.mem_cons.1 h with h | h
      · cases h
        exact hr
      · exact hrest r h
    | some next =>
      have hnext := hp next List.mem_cons_self
      rcases List.mem_cons.1 h with h | h
      · cases h
      · exact ih (pairwise_mergeBy htrans htotal hr hnext) hrest r h

theorem pairwise_collapse {places : List (Option (List α))}
    (hp : ∀ r, some r ∈ places → r.Pairwise (le · ·)) : (collapse le places).Pairwise (le · ·) := by
  induction places with
  | nil => exact .nil
  | cons p places ih =>
    have hrest := ih fun r h => hp r (List.mem_cons_of_mem p h)
    cases p with
    | none => exact hrest
    | some run => exact pairwise_mergeBy htrans htotal (hp run List.mem_cons_self) hrest

theorem pairwise_sortBy (l : List α) : (sortBy le l).Pairwise (le · ·) := by
  have hall (runs : List (List α)) (h : ∀ run ∈ runs, run.Pairwise (le · ·)) :
      ∀ r, some r ∈ runs.foldr (carry le) [] → r.Pairwise (le · ·) := by
    induction runs with
    | nil => exact fun _ h => nomatch h
    | cons run runs ih =>
      exact pairwise_carry htrans htotal (h run List.mem_cons_self)
        (ih fun r hr => h r (List.mem_cons_of_mem run hr))
  exact pairwise_collapse htrans htotal (hall _ (pairwise_runsOf htrans l))

end InOrder

section Map

variable {β : Type} {f : α → β} {le : α → α → Bool} {le' : β → β → Bool}
  (hle : ∀ a b, le' (f a) (f b) = le a b)

include hle

theorem map_mergeOne {rest : List α → List α} {rest' : List β → List β}
    (hrest : ∀ bs, (rest bs).map f = rest' (bs.map f)) (a : α) (bs : List α) :
    (mergeOne le a rest bs).map f = mergeOne le' (f a) rest' (bs.map f) := by
  induction bs with
  | nil => simp [mergeOne, hrest]
  | cons b bs ih =>
    rw [List.map_cons, mergeOne, mergeOne, hle]
    split
    · rw [List.map_cons, hrest, List.map_cons]
    · rw [List.map_cons, ih]

theorem map_mergeBy (as bs : List α) :
    (mergeBy le as bs).map f = mergeBy le' (as.map f) (bs.map f) := by
  induction as generalizing bs with
  | nil => rfl
  | cons a as ih => exact map_mergeOne hle ih a bs

theorem map_runsOf (l : List α) : (runsOf le l).map (List.map f) = runsOf le' (l.map f) := by
  induction l with
  | nil => rfl
  | cons a as ih =>
    rw [List.map_cons, runsOf, runsOf, ← ih]
    rcases runsOf le as with _ | ⟨_ | ⟨b, run⟩, runs⟩
    · rfl
    · rfl
    · simp only [List.map_cons, hle]
      split <;> rfl

theorem map_carry (run : List α) (places : List (Option (List α))) :
    (carry le run places).map (Option.map (List.map f)) =
      carry le' (run.map f) (places.map (Option.map (List.map f))) := by
  induction places generalizing run with
  | nil => rfl
  | cons p places ih =>
    cases p with
    | none => rfl
    | some next =>
      simp only [carry, List.map_cons, Option.map_none, Option.map_some, ih, map_mergeBy hle]

theorem map_collapse (places : List (Option (List α))) :
    (collapse le places).map f = collapse le' (places.map (Option.map (List.map f))) := by
  induction places with
  | nil => rfl
  | cons p places ih =>
    cases p with
    | none => exact ih
    | some run =>
      simp only [collapse, List.map_cons, Option.map_some, map_mergeBy hle, ih]

theorem map_sortBy (l : List α) : (sortBy le l).map f = sortBy le' (l.map f) := by
  rw [sortBy, sortBy, map_collapse hle, ← map_runsOf hle]
  congr 1
  induction runsOf le l with
  | nil => rfl
  | cons run runs ih => rw [List.foldr_cons, map_carry hle, ih, List.map_cons, List.foldr_cons]

end Map

end ModuleLens
