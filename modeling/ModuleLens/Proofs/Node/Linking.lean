import Mathlib.Data.List.Nodup
import ModuleLens.Proofs.Node.Drafts
import ModuleLens.Proofs.Node.Plain

/-! Numbering and linking, node by node.  In a numbered draft a number belongs to one node, so each
request has an answer of its own; the modules behind the imports of a linked module are the ones in
the answers, and two ways of answering give modules that are alike exactly if they answer every
request alike. -/

namespace ModuleLens

namespace Node

/-- Numbering changes identities only. -/
def Numbered (d e : Node) : Prop :=
  d.info = { e.info with id := d.id } ∧ d.label = e.label ∧ d.outcome = e.outcome

mutual

theorem mem_nodes_number (b : Nat) :
    ∀ (next : Nat) (n : Node), next < (number b next n).2 ∧
      ∀ d ∈ (number b next n).1.nodes, d.id.build = b ∧ next ≤ d.id.index ∧
        d.id.index < (number b next n).2 ∧ ∃ e ∈ n.nodes, Numbered d e
  | next, mk info label outcome children => by
    have hh := mem_nodes_numberAll b (next + 1) children
    simp only [number]
    refine ⟨hh.1, fun d hd => ?_⟩
    rcases mem_nodes.1 hd with rfl | ⟨c, hc, hd⟩
    · exact ⟨rfl, Nat.le_refl _, hh.1, _, List.mem_cons_self, rfl, rfl, rfl⟩
    · obtain ⟨h1, h2, h3, e, ⟨f, hf, he⟩, hn⟩ := hh.2 c hc d hd
      exact ⟨h1, by omega, h3, e, mem_nodes.2 (.inr ⟨f, hf, he⟩), hn⟩

theorem mem_nodes_numberAll (b : Nat) :
    ∀ (next : Nat) (cs : List Node), next ≤ (numberAll b next cs).2 ∧
      ∀ c ∈ (numberAll b next cs).1, ∀ d ∈ c.nodes, d.id.build = b ∧ next ≤ d.id.index ∧
        d.id.index < (numberAll b next cs).2 ∧ ∃ e, (∃ f ∈ cs, e ∈ f.nodes) ∧ Numbered d e
  | next, [] => ⟨Nat.le_refl _, fun _ h => nomatch h⟩
  | next, c :: cs => by
    have h1 := mem_nodes_number b next c
    have h2 := mem_nodes_numberAll b (number b next c).2 cs
    simp only [numberAll]
    refine ⟨by omega, fun a ha d hd => ?_⟩
    rcases List.mem_cons.1 ha with rfl | ha
    · obtain ⟨hb, hl, hu, e, he, hn⟩ := h1.2 d hd
      exact ⟨hb, hl, by omega, e, ⟨c, List.mem_cons_self, he⟩, hn⟩
    · obtain ⟨hb, hl, hu, e, ⟨f, hf, he⟩, hn⟩ := h2.2 a ha d hd
      exact ⟨hb, by omega, hu, e, ⟨f, List.mem_cons_of_mem c hf, he⟩, hn⟩

end

mutual

theorem ids_number_nodup (b : Nat) :
    ∀ (next : Nat) (n : Node), ((number b next n).1.nodes.map Node.id).Nodup
  | next, mk info label outcome children => by
    have hr := mem_nodes_numberAll b (next + 1) children
    simp only [number]
    rw [nodes, descendants_eq, List.map_cons, List.nodup_cons]
    refine ⟨fun hm => ?_, ids_numberAll_nodup b (next + 1) children⟩
    obtain ⟨d, hd, hi⟩ := List.mem_map.1 hm
    obtain ⟨c, hc, hd⟩ := List.mem_flatMap.1 hd
    have hlt := (hr.2 c hc d hd).2.1
    rw [hi] at hlt
    exact Nat.not_succ_le_self next hlt

theorem ids_numberAll_nodup (b : Nat) :
    ∀ (next : Nat) (cs : List Node), (((numberAll b next cs).1.flatMap nodes).map Node.id).Nodup
  | _, [] => .nil
  | next, c :: cs => by
    have h1 := mem_nodes_number b next c
    have h2 := mem_nodes_numberAll b (number b next c).2 cs
    simp only [numberAll]
    rw [List.flatMap_cons, List.map_append, List.nodup_append]
    refine ⟨ids_number_nodup b next c, ids_numberAll_nodup b _ cs, ?_⟩
    rintro _ hi _ hj rfl
    obtain ⟨d, hd, hdi⟩ := List.mem_map.1 hi
    obtain ⟨e, he, hei⟩ := List.mem_map.1 hj
    obtain ⟨a, ha, he⟩ := List.mem_flatMap.1 he
    have hu := (h1.2 d hd).2.2.1
    have hl := (h2.2 a ha e he).2.1
    rw [hdi] at hu
    rw [hei] at hl
    exact Nat.not_lt_of_le hl hu

end

theorem number_injective (b next : Nat) (n : Node) : ∀ d ∈ (number b next n).1.nodes,
    ∀ e ∈ (number b next n).1.nodes, d.id.index = e.id.index → d = e := by
  intro d hd e he hi
  have hb := ((mem_nodes_number b next n).2 d hd).1
  have hb' := ((mem_nodes_number b next n).2 e he).1
  have hid : d.id = e.id := congrArg₂ NodeId.mk (hb.trans hb'.symm) hi
  exact List.inj_on_of_nodup_map (ids_number_nodup b next n) hd he hid

mutual

theorem mem_requests : ∀ {n : Node} {r : Request}, r ∈ n.requests → ∃ d ∈ n.nodes, r ∈ d.ownRequest
  | mk info label outcome children, r, h => by
    have hc (rank : Nat) (hr : r ∈ requestsAt rank children) :
        ∃ d ∈ (mk info label outcome children).nodes, r ∈ d.ownRequest := by
      obtain ⟨c, hc, d, hd, hr⟩ := mem_requestsAt hr
      exact ⟨d, mem_nodes.2 (.inr ⟨c, hc, hd⟩), hr⟩
    simp only [requests, List.mem_append] at h
    rcases h with (((((h | h) | h) | h) | h) | h) | h
    · exact ⟨_, List.mem_cons_self, h⟩
    all_goals exact hc _ h

theorem mem_requestsAt : ∀ {rank : Nat} {cs : List Node} {r : Request},
    r ∈ requestsAt rank cs → ∃ c ∈ cs, ∃ d ∈ c.nodes, r ∈ d.ownRequest
  | _, [], _, h => nomatch h
  | rank, c :: cs, r, h => by
    simp only [requestsAt, List.mem_append] at h
    rcases h with h | h
    · split at h
      · exact ⟨c, List.mem_cons_self, mem_requests h⟩
      · cases h
    · obtain ⟨a, ha, hh⟩ := mem_requestsAt h
      exact ⟨a, List.mem_cons_of_mem c ha, hh⟩

end

theorem mem_ownRequest {d : Node} {r : Request} (h : r ∈ d.ownRequest) : r.index = d.id.index := by
  rw [ownRequest] at h
  split at h
  · rw [List.mem_singleton] at h
    rw [h]
  · cases h

theorem ownRequest_unique {d : Node} {r s : Request} (hr : r ∈ d.ownRequest)
    (hs : s ∈ d.ownRequest) : r = s := by
  rw [ownRequest] at hr hs
  split at hr
  · next he =>
    simp only [he, List.mem_singleton] at hs
    rw [List.mem_singleton] at hr
    rw [hr, hs]
  · cases hr

theorem requests_unique {b next : Nat} {n : Node} {r s : Request}
    (hr : r ∈ (number b next n).1.requests) (hs : s ∈ (number b next n).1.requests)
    (h : r.index = s.index) : r = s := by
  obtain ⟨d, hd, hr⟩ := mem_requests hr
  obtain ⟨e, he, hs⟩ := mem_requests hs
  have hi : d.id.index = e.id.index := by rw [← mem_ownRequest hr, ← mem_ownRequest hs, h]
  have hde := number_injective b next n d hd e he hi
  subst hde
  exact ownRequest_unique hr hs

theorem linkAll_eq (a : Answers) (cs : List Node) : linkAll a cs = cs.map (link a) := by
  induction cs with
  | nil => rfl
  | cons c cs ih => rw [linkAll, ih, List.map_cons]

theorem children_link (a : Answers) (n : Node) : (link a n).children = n.children.map (link a) := by
  obtain ⟨info, label, outcome, children⟩ := n
  exact linkAll_eq a children

theorem outcome_link (a : Answers) (n : Node) :
    (link a n).outcome = a[n.id.index]?.or n.outcome := by
  obtain ⟨info, label, outcome, children⟩ := n
  rfl

theorem nodes_link (a : Answers) (n : Node) : (link a n).nodes = n.nodes.map (link a) := by
  induction n using childInduction with
  | h n ih =>
    rw [nodes, nodes, descendants_eq, descendants_eq, children_link, List.flatMap_map,
      List.map_cons, List.map_flatMap]
    exact congrArg _ (List.flatMap_congr ih)

theorem target?_eq_some {n t : Node} : n.target? = some t ↔ n.outcome = some (.resolved t) := by
  rw [target?]
  split
  · next m hm => simp [hm]
  · next hm => simpa using hm t

theorem mem_descendants_link {a : Answers} {n d : Node} :
    d ∈ (link a n).descendants ↔ ∃ e ∈ n.descendants, d = link a e := by
  induction n using childInduction with
  | h n ih =>
    simp only [mem_descendants (n := n), mem_descendants (n := link a n), children_link,
      List.mem_map]
    constructor
    · rintro ⟨_, ⟨c, hc, rfl⟩, rfl | hd⟩
      · exact ⟨c, ⟨c, hc, .inl rfl⟩, rfl⟩
      · obtain ⟨e, he, rfl⟩ := (ih c hc).1 hd
        exact ⟨e, ⟨c, hc, .inr he⟩, rfl⟩
    · rintro ⟨e, ⟨c, hc, rfl | he⟩, rfl⟩
      · exact ⟨_, ⟨e, hc, rfl⟩, .inl rfl⟩
      · exact ⟨_, ⟨c, hc, rfl⟩, .inr ((ih c hc).2 ⟨e, he, rfl⟩)⟩

theorem mem_targets_link {a : Answers} {n t : Node} (hn : ∀ d ∈ n.descendants, d.outcome = none)
    (h : t ∈ (link a n).targets) : ∃ i : Nat, a[i]? = some (.resolved t) := by
  obtain ⟨d, hd, ht⟩ := List.mem_filterMap.1 h
  obtain ⟨e, he, rfl⟩ := mem_descendants_link.1 hd
  rw [target?_eq_some, outcome_link, hn e he, Option.or_none] at ht
  exact ⟨e.id.index, ht⟩

theorem plain_children {m n : Node} (h : m.plain = n.plain) :
    m.children.map plain = n.children.map plain ∧
      m.outcome.map plainOutcome = n.outcome.map plainOutcome := by
  obtain ⟨_, _, o, cs⟩ := m
  obtain ⟨_, _, p, ds⟩ := n
  simp only [plain, mk.injEq, plainAll_eq, plainSlot_eq] at h
  exact ⟨h.2.2.2, h.2.2.1⟩

theorem answers_of_plain_link {a b : Answers} {n : Node} (hn : ∀ d ∈ n.nodes, d.outcome = none)
    (h : (link a n).plain = (link b n).plain) :
    ∀ d ∈ n.nodes, a[d.id.index]?.map plainOutcome = b[d.id.index]?.map plainOutcome := by
  induction n using childInduction with
  | h n ih =>
    obtain ⟨hc, ho⟩ := plain_children h
    simp only [children_link, List.map_map] at hc
    intro d hd
    rcases mem_nodes.1 hd with rfl | ⟨c, hm, hd⟩
    · rw [outcome_link, outcome_link, hn d List.mem_cons_self] at ho
      simpa using ho
    · exact ih c hm (fun e he => hn e (mem_nodes.2 (.inr ⟨c, hm, he⟩)))
        (List.map_inj_left.1 hc c hm) d hd

def answersFrom (answer : ImportEdge → Outcome Node) (a : Answers) (rs : List Request) : Answers :=
  rs.foldl (fun answers r => answers.insert r.index (answer r.edge)) a

theorem alike_answersFrom {f g : ImportEdge → Outcome Node} {a b : Answers} {rs : List Request}
    (h : ∀ r ∈ rs, plainOutcome (f r.edge) = plainOutcome (g r.edge)) (hab : Answers.Alike a b) :
    Answers.Alike (answersFrom f a rs) (answersFrom g b rs) := by
  induction rs generalizing a b with
  | nil => exact hab
  | cons r rs ih =>
    exact ih (fun s hs => h s (List.mem_cons_of_mem r hs))
      (hab.insert (h r List.mem_cons_self) r.index)

theorem getElem?_answersFrom {f : ImportEdge → Outcome Node} {a : Answers} {rs : List Request}
    {i : Nat} {o : Outcome Node} (h : (answersFrom f a rs)[i]? = some o) :
    a[i]? = some o ∨ ∃ r ∈ rs, r.index = i ∧ f r.edge = o := by
  induction rs generalizing a with
  | nil => exact .inl h
  | cons r rs ih =>
    rcases ih h with h | ⟨s, hs, hh⟩
    · by_cases hi : r.index = i
      · subst hi
        exact .inr ⟨r, List.mem_cons_self, rfl, by simpa using h⟩
      · exact .inl (by simpa [Std.TreeMap.getElem?_insert, hi] using h)
    · exact .inr ⟨s, List.mem_cons_of_mem r hs, hh⟩

theorem isSome_answersFrom {f : ImportEdge → Outcome Node} {a : Answers} {rs : List Request}
    {i : Nat} (h : a[i]?.isSome ∨ ∃ r ∈ rs, r.index = i) : (answersFrom f a rs)[i]?.isSome := by
  induction rs generalizing a with
  | nil =>
    rcases h with h | ⟨r, hr, _⟩
    · exact h
    · cases hr
  | cons r rs ih =>
    refine ih ?_
    by_cases hi : r.index = i
    · left
      subst hi
      simp
    · rcases h with h | ⟨s, hs, hh⟩
      · left
        simpa [Std.TreeMap.getElem?_insert, hi] using h
      · rcases List.mem_cons.1 hs with rfl | hs
        · exact absurd hh hi
        · exact .inr ⟨s, hs, hh⟩

theorem getElem?_answersFrom_index {f : ImportEdge → Outcome Node} {rs : List Request}
    (hu : ∀ r ∈ rs, ∀ s ∈ rs, r.index = s.index → r = s) {r : Request} (hr : r ∈ rs) :
    (answersFrom f {} rs)[r.index]? = some (f r.edge) := by
  have hs := isSome_answersFrom (f := f) (a := {}) (.inr ⟨r, hr, rfl⟩)
  obtain ⟨o, ho⟩ := Option.isSome_iff_exists.1 hs
  rcases getElem?_answersFrom ho with h | ⟨s, hs, hi, rfl⟩
  · simp at h
  · rw [ho, hu s hs r hr hi]

end Node

open Node

section

variable (b : Nat) (root : SyntaxTree) (document : Document) (depth : Nat)

theorem draftModule_nodes : ∀ d ∈ (draftModule b root document depth).nodes,
    d.outcome = none ∧ d.document = document ∧ d.depth = depth ∧ d.id.build = b := by
  let ctx : DraftContext := ⟨document, depth, .of document.text⟩
  have hp : ctx.Hereditary fun n =>
      ∀ d ∈ n.nodes, d.outcome = none ∧ d.document = document ∧ d.depth = depth := by
    refine ⟨fun n role h d hd => ?_, fun span label cs h d hd => ?_⟩
    · obtain ⟨info, label, outcome, children⟩ := n
      rcases mem_nodes.1 hd with rfl | hd
      · exact h (.mk info label outcome children) List.mem_cons_self
      · exact h d (mem_nodes.2 (.inr hd))
    · rcases mem_nodes.1 hd with rfl | ⟨c, hc, hd⟩
      · exact ⟨rfl, rfl, rfl⟩
      · exact h c ((sortBy_perm _ _).mem_iff.1 hc) d hd
  intro d hd
  obtain ⟨hb, _, _, e, he, hi, _, ho⟩ := (mem_nodes_number b 0 (ctx.draftModule root)).2 d hd
  obtain ⟨h1, h2, h3⟩ := hp.draftModule root e he
  refine ⟨ho.trans h1, ?_, ?_, hb⟩
  · rw [Node.document, hi]
    exact h2
  · rw [Node.depth, hi]
    exact h3

theorem id_draftModule : (draftModule b root document depth).id = ⟨b, 0⟩ := by
  simp only [draftModule]
  cases DraftContext.draftModule _ root
  rfl

theorem label_draftModule : (draftModule b root document depth).label = .module := by
  let ctx : DraftContext := ⟨document, depth, .of document.text⟩
  have hl : (ctx.draftModule root).label = .module := by
    rw [DraftContext.draftModule]
    split <;> rfl
  rw [← hl, draftModule]
  cases ctx.draftModule root
  rfl

theorem info_link (a : Answers) (n : Node) : (n.link a).info = n.info := by
  cases n
  rfl

theorem getElem?_answers {f : ImportEdge → Outcome Node} {r : Request}
    (hr : r ∈ (draftModule b root document depth).requests) :
    (answersFrom f {} (draftModule b root document depth).requests)[r.index]? =
      some (f r.edge) :=
  getElem?_answersFrom_index (fun _ hr _ hs => requests_unique hr hs) hr

theorem exists_descendant_of_request {r : Request}
    (hr : r ∈ (draftModule b root document depth).requests) :
    ∃ d ∈ (draftModule b root document depth).descendants, d.id.index = r.index := by
  obtain ⟨d, hd, hrd⟩ := mem_requests hr
  have hne : d ≠ draftModule b root document depth := by
    rintro rfl
    rw [ownRequest, clause?, label_draftModule] at hrd
    cases hrd
  exact ⟨d, (List.mem_cons.1 hd).resolve_left hne, (mem_ownRequest hrd).symm⟩

/-- A module that a request is answered with is behind an import of the linked module. -/
theorem mem_targets_linkModule {f : ImportEdge → Outcome Node} {r : Request} {t : Node}
    (hr : r ∈ (draftModule b root document depth).requests) (ht : f r.edge = .resolved t) :
    t ∈ (linkModule (draftModule b root document depth) f).targets := by
  obtain ⟨d, hd, hi⟩ := exists_descendant_of_request b root document depth hr
  have ha : (answersFrom f {} (draftModule b root document depth).requests)[d.id.index]? =
      some (.resolved t) := by
    rw [hi, getElem?_answers b root document depth hr, ht]
  refine List.mem_filterMap.2 ⟨_, mem_descendants_link.2 ⟨d, hd, rfl⟩, ?_⟩
  rw [target?_eq_some, outcome_link]
  change (answersFrom f {} _)[d.id.index]?.or d.outcome = _
  rw [ha]
  rfl

/-- Modules made from one draft are alike exactly if every request was answered alike. -/
theorem plain_linkModule_iff {f g : ImportEdge → Outcome Node} :
    (linkModule (draftModule b root document depth) f).plain =
        (linkModule (draftModule b root document depth) g).plain ↔
      ∀ r ∈ (draftModule b root document depth).requests,
        plainOutcome (f r.edge) = plainOutcome (g r.edge) := by
  constructor
  · intro h r hr
    obtain ⟨d, hd, hrd⟩ := mem_requests hr
    have hh := answers_of_plain_link
      (fun d hd => (draftModule_nodes b root document depth d hd).1) h d hd
    rw [← mem_ownRequest hrd] at hh
    change (answersFrom f {} _)[r.index]?.map _ = (answersFrom g {} _)[r.index]?.map _ at hh
    rw [getElem?_answers b root document depth hr, getElem?_answers b root document depth hr] at hh
    exact Option.some.inj hh
  · intro h
    exact plain_link_draftModule (alike_answersFrom h (.refl {})) b b root document depth

end

theorem ids_linked_nodup (build depth : Nat) (root : SyntaxTree) (document : Document)
    (answers : Answers) :
    (((draftModule build root document depth).link answers).nodes.map Node.id).Nodup := by
  have hid : Node.id ∘ link answers = Node.id :=
    funext fun n => congrArg NodeInfo.id (info_link answers n)
  rw [nodes_link, List.map_map, hid]
  exact ids_number_nodup build 0 _

end ModuleLens
