import ModuleLens.Proofs.Node.Delays

/-! Levels of imports.  All nodes of a module stand as many imports away from the entry document,
the modules behind its imports stand one further, and at the limit no import is followed any more.
A linked draft is on its level if the answers to its requests fit that level. -/

namespace ModuleLens

namespace Node

/-- The import that a node asks for, if it has a path and its keywords do not contradict each
other. -/
def edge? (n : Node) : Option ImportEdge := n.clause?.bind ImportClause.edge?

/-- A module that is on its level; if `late` holds, an import at the limit may have been given
up. -/
structure OnLevel (limit : Nat) (late : Prop) (n : Node) : Prop where
  same : ∀ d ∈ n.nodes, d.depth = n.depth
  next : ∀ d ∈ n.nodes, ∀ t, d.target? = some t → t.depth = d.depth + 1
  bound : n.depth ≤ limit
  stop : ∀ d ∈ n.nodes, d.edge?.isSome → d.depth = limit →
    d.outcome = some (.tooDeep limit) ∨ late ∧ d.outcome = some .timedOut

theorem OnLevel.mono {limit : Nat} {late late' : Prop} {n : Node} (h : n.OnLevel limit late)
    (hl : late → late') : n.OnLevel limit late' := by
  refine ⟨h.same, h.next, h.bound, fun d hd he hdepth => ?_⟩
  rcases h.stop d hd he hdepth with ho | ⟨hlate, ho⟩
  · exact .inl ho
  · exact .inr ⟨hl hlate, ho⟩

/-- A module is on its level, and so is every module that a chain of imports leads to. -/
def Levelled (limit : Nat) (n : Node) : Prop := ∀ m, Reaches n m → m.OnLevel limit False

end Node

open Node

/-- What can come of an import at a depth: beyond the limit nothing but a report of the limit,
unless a wait was given up. -/
def Outcome.Fit (limit depth : Nat) (late : Prop) : Outcome Node → Prop
  | resolved t => t.depth = depth + 1 ∧ t.Levelled limit
  | notFound => depth < limit
  | tooDeep reported => reported = limit
  | timedOut => depth < limit ∨ late

theorem Outcome.Fit.atLimit {limit : Nat} {late : Prop} {o : Outcome Node}
    (h : o.Fit limit limit late) : o = .tooDeep limit ∨ late ∧ o = .timedOut := by
  cases o with
  | resolved t =>
    have hb := (h.2 t .refl).bound
    have hd := h.1
    omega
  | notFound => exact absurd h (Nat.lt_irrefl limit)
  | tooDeep reported => exact .inl (congrArg Outcome.tooDeep h)
  | timedOut =>
    rcases h with h | h
    · exact absurd h (Nat.lt_irrefl limit)
    · exact .inr ⟨h, rfl⟩

namespace Node

theorem mem_requestsAt_of_mem {rank : Nat} {cs : List Node} {c : Node} {r : Request} (hc : c ∈ cs)
    (hrank : c.role.rank = rank) (hr : r ∈ c.requests) : r ∈ requestsAt rank cs := by
  induction cs with
  | nil => cases hc
  | cons a cs ih =>
    rw [requestsAt]
    rcases List.mem_cons.1 hc with rfl | hc
    · exact List.mem_append_left _ (by rwa [if_pos hrank])
    · exact List.mem_append_right _ (ih hc)

theorem mem_requests_of_child {n c : Node} {r : Request} (hc : c ∈ n.children)
    (hr : r ∈ c.requests) : r ∈ n.requests := by
  obtain ⟨info, label, outcome, children⟩ := n
  have hh : r ∈ requestsAt c.role.rank children := mem_requestsAt_of_mem hc rfl hr
  have hlt : c.role.rank < 6 := by cases c.role <;> decide
  generalize c.role.rank = rank at hh hlt
  have hrank : rank = 0 ∨ rank = 1 ∨ rank = 2 ∨ rank = 3 ∨ rank = 4 ∨ rank = 5 := by omega
  simp only [requests, List.mem_append]
  rcases hrank with rfl | rfl | rfl | rfl | rfl | rfl <;> simp [hh]

theorem mem_requests_of_mem_nodes {n d : Node} {r : Request} (hd : d ∈ n.nodes)
    (hr : r ∈ d.ownRequest) : r ∈ n.requests := by
  induction n using childInduction with
  | h n ih =>
    rcases mem_nodes.1 hd with rfl | ⟨c, hc, hd⟩
    · obtain ⟨info, label, outcome, children⟩ := d
      simp only [requests, List.mem_append]
      simp [hr]
    · exact mem_requests_of_child hc (ih c hc hd)

theorem ownRequest_of_edge? {d : Node} {edge : ImportEdge} (h : d.edge? = some edge) :
    ⟨d.id.index, edge⟩ ∈ d.ownRequest := by
  rw [edge?] at h
  simp [ownRequest, h]

theorem mem_nodes_link {a : Answers} {n d : Node} :
    d ∈ (link a n).nodes ↔ ∃ e ∈ n.nodes, d = link a e := by
  simp only [nodes, List.mem_cons, mem_descendants_link, exists_eq_or_imp]

theorem label_link (a : Answers) (n : Node) : (link a n).label = n.label := by
  cases n
  rfl

structure Answers.Fit (limit depth : Nat) (late : Prop) (rs : List Request) (a : Answers) :
    Prop where
  fits : ∀ {i : Nat} {o}, a[i]? = some o → o.Fit limit depth late
  known : ∀ r ∈ rs, a[r.index]?.isSome

theorem Answers.fit_empty (limit depth : Nat) (late : Prop) :
    Answers.Fit limit depth late [] {} :=
  ⟨fun h => by simp at h, fun _ h => absurd h List.not_mem_nil⟩

theorem Answers.Fit.insert {limit depth : Nat} {late : Prop} {rs : List Request} {a : Answers}
    (h : Answers.Fit limit depth late rs a) (r : Request) {o : Outcome Node}
    (ho : o.Fit limit depth late) :
    Answers.Fit limit depth late (rs ++ [r]) (a.insert r.index o) := by
  refine ⟨fun {i p} hp => ?_, fun s hs => ?_⟩
  · by_cases hi : r.index = i
    · subst hi
      have hop : o = p := by simpa using hp
      exact hop ▸ ho
    · exact h.fits (by simpa [Std.TreeMap.getElem?_insert, hi] using hp)
  · by_cases hi : r.index = s.index
    · simp [hi]
    · rcases List.mem_append.1 hs with hs | hs
      · simpa [Std.TreeMap.getElem?_insert, hi] using h.known s hs
      · exact absurd (congrArg Request.index (List.mem_singleton.1 hs).symm) hi

end Node

/-- A draft becomes a module on its level if all its requests have answers that fit. -/
theorem onLevel_link {b depth limit : Nat} {late : Prop} {root : SyntaxTree} {document : Document}
    {a : Answers} (hd : depth ≤ limit)
    (ha : Answers.Fit limit depth late (draftModule b root document depth).requests a) :
    ((draftModule b root document depth).link a).depth = depth ∧
      ((draftModule b root document depth).link a).OnLevel limit late ∧
      ∀ t, Imports ((draftModule b root document depth).link a) t → t.Levelled limit := by
  let draft := draftModule b root document depth
  have hdepth (e : Node) (he : e ∈ draft.nodes) : (e.link a).depth = depth := by
    rw [Node.depth, info_link]
    exact (draftModule_nodes b root document depth e he).2.2.1
  have hout (e : Node) (he : e ∈ draft.nodes) : (e.link a).outcome = a[e.id.index]? := by
    rw [outcome_link, (draftModule_nodes b root document depth e he).1, Option.or_none]
  have hroot : (draft.link a).depth = depth := hdepth draft List.mem_cons_self
  refine ⟨hroot, ⟨fun d hm => ?_, fun d hm t ht => ?_, Nat.le_trans (Nat.le_of_eq hroot) hd,
    fun d hm hedge hlim => ?_⟩, fun t ht => ?_⟩
  · obtain ⟨e, he, rfl⟩ := mem_nodes_link.1 hm
    exact (hdepth e he).trans hroot.symm
  · obtain ⟨e, he, rfl⟩ := mem_nodes_link.1 hm
    rw [target?_eq_some, hout e he] at ht
    rw [hdepth e he]
    exact (ha.fits ht).1
  · obtain ⟨e, he, rfl⟩ := mem_nodes_link.1 hm
    obtain ⟨edge, hedge⟩ := Option.isSome_iff_exists.1 hedge
    have hedge : e.edge? = some edge := by
      rwa [edge?, clause?, label_link, ← clause?, ← edge?] at hedge
    have hr := mem_requests_of_mem_nodes he (ownRequest_of_edge? hedge)
    obtain ⟨o, ho⟩ := Option.isSome_iff_exists.1 (ha.known _ hr)
    have hfit := ha.fits ho
    rw [hdepth e he] at hlim
    subst hlim
    rw [hout e he, show a[e.id.index]? = some o from ho]
    rcases hfit.atLimit with rfl | ⟨hlate, rfl⟩
    · exact .inl rfl
    · exact .inr ⟨hlate, rfl⟩
  · obtain ⟨i, hi⟩ := mem_targets_link (draftModule_descendants root document depth b) ht
    exact (ha.fits hi).2

theorem levelled_link {b depth limit : Nat} {root : SyntaxTree} {document : Document} {a : Answers}
    (hd : depth ≤ limit)
    (ha : Answers.Fit limit depth False (draftModule b root document depth).requests a) :
    ((draftModule b root document depth).link a).Levelled limit := by
  obtain ⟨_, hlevel, hnext⟩ := onLevel_link hd ha
  intro m hm
  rcases hm.cases_head with rfl | ⟨t, ht, hm⟩
  · exact hlevel
  · exact hnext t ht m hm

end ModuleLens
