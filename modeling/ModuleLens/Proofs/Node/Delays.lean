import ModuleLens.Proofs.Node.Linking
import ModuleLens.Proofs.Node.Reach

/-! Modules in which an import was given up.  Whether a wait that took too long has left its mark in
a module can be read off the module, its identities aside; and in a linked draft it can be read off
the answers. -/

namespace ModuleLens

namespace Node

/-- In a module, or in one that a chain of imports leads to, an import was given up since a wait
took too long. -/
def Late (n : Node) : Prop :=
  ∃ m, Reaches n m ∧ ∃ d ∈ m.descendants, d.outcome = some .timedOut

end Node

open Node

def Outcome.Late : Outcome Node → Prop
  | resolved module => module.Late
  | timedOut => True
  | _ => False

namespace Node

theorem late_iff {n : Node} : n.Late ↔ ∃ d ∈ n.descendants, ∃ o, d.outcome = some o ∧ o.Late := by
  constructor
  · rintro ⟨m, hr, d, hd, ho⟩
    rcases hr.cases_head with rfl | ⟨t, ht, hr⟩
    · exact ⟨d, hd, .timedOut, ho, trivial⟩
    · obtain ⟨e, he, het⟩ := List.mem_filterMap.1 ht
      exact ⟨e, he, .resolved t, target?_eq_some.1 het, m, hr, d, hd, ho⟩
  · rintro ⟨d, hd, o, ho, hl⟩
    cases o with
    | timedOut => exact ⟨n, .refl, d, hd, ho⟩
    | resolved t =>
      obtain ⟨m, hr, hm⟩ := hl
      exact ⟨m, .head (List.mem_filterMap.2 ⟨d, hd, target?_eq_some.2 ho⟩) hr, hm⟩
    | notFound => exact hl.elim
    | tooDeep limit => exact hl.elim

theorem late_of_plain {m n : Node} (h : m.plain = n.plain) (hm : m.Late) : n.Late := by
  obtain ⟨x, hr, d, hd, ho⟩ := hm
  induction hr using Relation.ReflTransGen.head_induction_on generalizing n with
  | refl =>
    have hmem : d.plain ∈ n.descendants.map plain := by
      rw [← descendants_plain, ← h, descendants_plain]
      exact List.mem_map_of_mem hd
    obtain ⟨e, he, hed⟩ := List.mem_map.1 hmem
    refine ⟨n, .refl, e, he, ?_⟩
    have hout := (plain_children hed).2
    rw [ho] at hout
    cases heo : e.outcome with
    | none => simp [heo] at hout
    | some o => cases o <;> simp_all [plainOutcome]
  | @head a t hat _ ih =>
    have hmem : t.plain ∈ n.targets.map plain := by
      rw [← targets_plain, ← h, targets_plain]
      exact List.mem_map_of_mem hat
    obtain ⟨u, hu, hut⟩ := List.mem_map.1 hmem
    obtain ⟨y, hr, hy⟩ := ih hut.symm
    exact ⟨y, .head hu hr, hy⟩

theorem late_link {a : Answers} {n : Node} (hn : ∀ d ∈ n.descendants, d.outcome = none) :
    (link a n).Late ↔ ∃ d ∈ n.descendants, ∃ o, a[d.id.index]? = some o ∧ o.Late := by
  rw [late_iff]
  constructor
  · rintro ⟨_, hd, o, ho, hl⟩
    obtain ⟨e, he, rfl⟩ := mem_descendants_link.1 hd
    rw [outcome_link, hn e he, Option.or_none] at ho
    exact ⟨e, he, o, ho, hl⟩
  · rintro ⟨e, he, o, ho, hl⟩
    refine ⟨_, mem_descendants_link.2 ⟨e, he, rfl⟩, o, ?_, hl⟩
    rw [outcome_link, ho, Option.some_or]

end Node

/-- An outcome is alike to another one, or a delay has left its mark in it. -/
def Outcome.Fair (late : Prop) (o p : Outcome Node) : Prop :=
  plainOutcome o = plainOutcome p ∨ late ∧ o.Late

namespace Node

/-- Answers that are alike but for the requests whose answers are late. -/
def Answers.Fair (late : Prop) (rs : List Request) (a b : Answers) : Prop :=
  ∀ i : Nat, a[i]?.map plainOutcome = b[i]?.map plainOutcome ∨
    late ∧ (∃ r ∈ rs, r.index = i) ∧ ∃ o, a[i]? = some o ∧ o.Late

theorem Answers.Fair.insert {late : Prop} {rs : List Request} {a b : Answers}
    (h : Answers.Fair late rs a b) {r : Request} (hr : r ∈ rs) {o p : Outcome Node}
    (ho : o.Fair late p) : Answers.Fair late rs (a.insert r.index o) (b.insert r.index p) := by
  intro i
  by_cases hi : r.index = i
  · subst hi
    rcases ho with ho | ⟨hl, ho⟩
    · exact .inl (by simp [ho])
    · exact .inr ⟨hl, ⟨r, hr, rfl⟩, o, by simp, ho⟩
  · simpa [Std.TreeMap.getElem?_insert, hi] using h i

end Node

section

variable (root : SyntaxTree) (document : Document) (depth : Nat)

theorem draftModule_descendants (b : Nat) :
    ∀ d ∈ (draftModule b root document depth).descendants, d.outcome = none :=
  fun d hd => (draftModule_nodes b root document depth d (List.mem_cons_of_mem _ hd)).1

theorem fair_link_draftModule {late : Prop} {a a' : Answers} (b b' : Nat)
    (h : Answers.Fair late (draftModule b root document depth).requests a a') :
    ((draftModule b root document depth).link a).plain =
        ((draftModule b' root document depth).link a').plain ∨
      late ∧ ((draftModule b root document depth).link a).Late := by
  by_cases halike : Answers.Alike a a'
  · exact .inl (plain_link_draftModule halike b b' root document depth)
  · obtain ⟨i, hi⟩ := Classical.not_forall.1 halike
    obtain ⟨hl, ⟨r, hr, rfl⟩, o, ho, hlate⟩ := (h i).resolve_left hi
    obtain ⟨d, hd, hdi⟩ := exists_descendant_of_request b root document depth hr
    refine .inr ⟨hl, (late_link (draftModule_descendants root document depth b)).2 ⟨d, hd, o, ?_,
      hlate⟩⟩
    rw [hdi, ho]

theorem not_late_linkModule {f : ImportEdge → Outcome Node} (h : ∀ edge, ¬ (f edge).Late) (b : Nat) :
    ¬ (linkModule (draftModule b root document depth) f).Late := by
  intro hlate
  obtain ⟨d, _, o, ho, hl⟩ := (late_link (draftModule_descendants root document depth b)).1 hlate
  rcases getElem?_answersFrom ho with hnone | ⟨r, _, _, rfl⟩
  · simp at hnone
  · exact h r.edge hl

end

end ModuleLens
