import ModuleLens.Proofs.Node.Nesting
import ModuleLens.Sketch

/-! The innermost node at a position.  The descent enters the first child that contains the
position and never turns back.  Where ranges are nested it goes past no node around the position,
since of children one after the other only one can have the position strictly inside.  A root that
made no sense, however, leaves a child that covers the whole module and lies over the other ones;
there the descent ends at the innermost node only where nothing else competes with that child. -/

namespace ModuleLens

namespace Node

variable {uri : Uri} {p : Position} {n m d : Node}

/-- A node of a tree that contains a position and has no child that does. -/
structure Found (n : Node) (p : Position) (m : Node) : Prop where
  mem : m ∈ n.nodes
  contains : m.range.contains p
  last : ∀ c ∈ m.children, ¬ c.range.contains p

/-- A node below which nothing around a position is left out. -/
def Innermost (n : Node) (p : Position) (m : Node) : Prop :=
  ∀ d ∈ n.nodes, d.range.Surrounds p → m ∈ d.nodes

theorem locateFirst_eq (cs : List Node) :
    locateFirst uri p cs =
      (cs.find? fun c => c.uri = uri && c.range.contains p).map (locate uri p) := by
  induction cs with
  | nil => rfl
  | cons c cs ih =>
    rw [locateFirst, List.find?_cons]
    split
    · next h => simp [h]
    · next h => simp only [h, ih]

/-- The descent stops where no child contains the position, and enters the first one that does. -/
theorem locate_cases (huri : ∀ c ∈ n.children, c.uri = uri) :
    n.locate uri p = n ∧ (∀ c ∈ n.children, ¬ c.range.contains p) ∨
      ∃ before c after, n.children = before ++ c :: after ∧ c.range.contains p ∧
        (∀ d ∈ before, ¬ d.range.contains p) ∧ n.locate uri p = c.locate uri p := by
  obtain ⟨info, label, outcome, children⟩ := n
  rw [locate, locateFirst_eq]
  cases hf : children.find? fun c => c.uri = uri && c.range.contains p with
  | none =>
    refine .inl ⟨rfl, fun c hc hp => ?_⟩
    have hh := List.find?_eq_none.1 hf c hc
    simp [huri c hc, hp] at hh
  | some c =>
    obtain ⟨hc, before, after, hsplit, hbefore⟩ := List.find?_eq_some_iff_append.1 hf
    refine .inr ⟨before, c, after, hsplit, (Bool.and_eq_true_iff.1 hc).2, fun d hd hp => ?_, rfl⟩
    have hmem : d ∈ children := hsplit ▸ List.mem_append_left _ hd
    have hh := hbefore d hd
    simp [huri d hmem, hp] at hh

theorem uri_of_child (huri : ∀ d ∈ n.nodes, d.uri = uri) {c : Node} (hc : c ∈ n.children) :
    ∀ d ∈ c.nodes, d.uri = uri :=
  fun d hd => huri d (mem_nodes.2 (.inr ⟨c, hc, hd⟩))

theorem uri_of_mem_children (huri : ∀ d ∈ n.nodes, d.uri = uri) :
    ∀ c ∈ n.children, c.uri = uri :=
  fun c hc => huri c (mem_nodes.2 (.inr ⟨c, hc, List.mem_cons_self⟩))

theorem locate_found (huri : ∀ d ∈ n.nodes, d.uri = uri) (hp : n.range.contains p) :
    n.Found p (n.locate uri p) := by
  induction n using childInduction with
  | h n ih =>
    rcases locate_cases (uri_of_mem_children huri) with
      ⟨he, hlast⟩ | ⟨before, c, after, hs, hc, _, he⟩
    · rw [he]
      exact ⟨List.mem_cons_self, hp, hlast⟩
    · have hmem : c ∈ n.children := hs ▸ List.mem_append_right _ List.mem_cons_self
      obtain ⟨hin, hcontains, hlast⟩ := ih c hmem (uri_of_child huri hmem) hc
      rw [he]
      exact ⟨mem_nodes.2 (.inr ⟨c, hmem, hin⟩), hcontains, hlast⟩

theorem Nested.surrounds (h : n.Nested) (hd : d ∈ n.nodes) (hp : d.range.Surrounds p) :
    n.range.Surrounds p := by
  induction n using childInduction with
  | h n ih =>
    rcases mem_nodes.1 hd with rfl | ⟨c, hc, hd⟩
    · exact hp
    · obtain ⟨hin, hchildren⟩ := nested_iff.1 h
      have hm : c.range.positions ∈ (n.children.map range).map Extent.positions :=
        List.mem_map_of_mem (List.mem_map_of_mem hc)
      exact (hin.2.1 _ hm).surrounds (ih c hc (hchildren c hc) hd)

/-- Of the children of a nested node, only one contains a position that one surrounds. -/
theorem Nested.eq_of_surrounds (h : n.Nested) {before after : List Node} {c e : Node}
    (hs : n.children = before ++ c :: after) (he : e ∈ n.children) (hp : e.range.Surrounds p)
    (hc : c.range.contains p) : e = c := by
  have hpairs := (nested_iff.1 h).1.2.pairwise
  rw [List.map_map, List.pairwise_map, hs, List.pairwise_append, List.pairwise_cons] at hpairs
  obtain ⟨_, ⟨hafter, _⟩, hbefore⟩ := hpairs
  rw [hs, List.mem_append, List.mem_cons] at he
  rcases he with he | rfl | he
  · exact absurd hc (hp.unique (.inl (hbefore e he c List.mem_cons_self)))
  · rfl
  · exact absurd hc (hp.unique (.inr (hafter e he)))

theorem Nested.innermost_locate (h : n.Nested) (huri : ∀ d ∈ n.nodes, d.uri = uri) :
    n.Innermost p (n.locate uri p) := by
  induction n using childInduction with
  | h n ih =>
    intro d hd hp
    rcases mem_nodes.1 hd with rfl | ⟨e, he, hd⟩
    · exact (locate_found huri hp.contains).mem
    · have hsurrounds := (h.child he).surrounds hd hp
      rcases locate_cases (uri_of_mem_children huri) with
        ⟨_, hlast⟩ | ⟨before, c, after, hs, hc, _, hl⟩
      · exact absurd hsurrounds.contains (hlast e he)
      · cases h.eq_of_surrounds hs he hsurrounds hc
        rw [hl]
        exact ih e he (h.child he) (uri_of_child huri he) d hd hp

/-- A node with a child that covers it and lies over its other children. -/
structure Overlaid (n : Node) (parts : List Extent) (before : List Node) (cover : Node)
    (after : List Node) : Prop where
  split : n.children = before ++ cover :: after
  covers : cover.range = n.range
  leaf : cover.children = []
  others : ((before ++ after).map range).Perm parts
  nested : ∀ c ∈ before ++ after, c.Nested
  sorted : (n.children.map range).Pairwise Extent.InOrder

theorem numberAll_append (build next : Nat) (cs ds : List Node) :
    (numberAll build next (cs ++ ds)).1 =
      (numberAll build next cs).1 ++ (numberAll build (numberAll build next cs).2 ds).1 := by
  induction cs generalizing next with
  | nil => rfl
  | cons c cs ih => simp only [List.cons_append, numberAll, ih]

theorem range_link (answers : Answers) (n : Node) : (n.link answers).range = n.range :=
  congrArg NodeInfo.range (info_link answers n)

theorem range_number (build next : Nat) (n : Node) : (number build next n).1.range = n.range := by
  cases n
  rfl

theorem children_number (build next : Nat) (n : Node) :
    (number build next n).1.children = (numberAll build (next + 1) n.children).1 := by
  cases n
  rfl

theorem Overlaid.linked {parts : List Extent} {before after : List Node} {cover : Node}
    (h : n.Overlaid parts before cover after) (build next : Nat) (answers : Answers) :
    ∃ before' cover' after', ((number build next n).1.link answers).Overlaid parts before' cover'
      after' := by
  let finish (next : Nat) (cs : List Node) : List Node :=
    (numberAll build next cs).1.map (link answers)
  have hranges (next : Nat) (cs : List Node) : (finish next cs).map range = cs.map range := by
    have hlink : range ∘ link answers = range := funext (range_link answers)
    rw [List.map_map, hlink, ranges_numberAll]
  have hnested (next : Nat) (cs : List Node) (hcs : ∀ c ∈ cs, c.Nested) :
      ∀ c ∈ finish next cs, c.Nested :=
    List.forall_mem_map.2 fun c hc => nested_link answers (nested_numberAll build next hcs c hc)
  have hchildren : ((number build next n).1.link answers).children =
      finish (next + 1) n.children := by
    rw [children_link, children_number]
  let k := (numberAll build (next + 1) before).2
  refine ⟨finish (next + 1) before, (number build k cover).1.link answers,
    finish (number build k cover).2 after, ?_, ?_, ?_, ?_, ?_, ?_⟩
  · simp only [hchildren, finish, h.split, numberAll_append, numberAll, List.map_append,
      List.map_cons, k]
  · rw [range_link, range_link, range_number, range_number, h.covers]
  · rw [children_link, children_number, h.leaf]
    rfl
  · rw [List.map_append, hranges, hranges, ← List.map_append]
    exact h.others
  · intro c hc
    rcases List.mem_append.1 hc with hc | hc
    · exact hnested _ before (fun d hd => h.nested d (List.mem_append_left _ hd)) c hc
    · exact hnested _ after (fun d hd => h.nested d (List.mem_append_right _ hd)) c hc
  · rw [hchildren, hranges]
    exact h.sorted

/-- No node is below two children of a node with distinct identities. -/
theorem not_mem_nodes_of_apart (hids : (n.nodes.map Node.id).Nodup) {before after : List Node}
    {c e : Node} (hs : n.children = before ++ c :: after) (he : e ∈ before ++ after)
    (hm : m ∈ c.nodes) : m ∉ e.nodes := by
  intro hme
  rw [nodes, descendants_eq, hs, List.map_cons, List.nodup_cons] at hids
  have hperm : ((before ++ c :: after).flatMap nodes).Perm
      ((c :: (before ++ after)).flatMap nodes) :=
    List.perm_middle.flatMap_right nodes
  have hnodup := (hperm.map Node.id).nodup_iff.1 hids.2
  rw [List.flatMap_cons, List.map_append, List.nodup_append] at hnodup
  have hm' := List.mem_map_of_mem (f := Node.id) hm
  have hme' := List.mem_map_of_mem (f := Node.id) (List.mem_flatMap.2 ⟨e, he, hme⟩)
  exact hnodup.2.2 _ hm' _ hme' rfl

/-- Of sorted children the descent enters one that comes before all others at the position. -/
theorem locate_entered (huri : ∀ c ∈ n.children, c.uri = uri)
    (hsorted : (n.children.map range).Pairwise Extent.InOrder) {c : Node} (hc : c ∈ n.children)
    (hp : c.range.contains p) :
    ∃ e ∈ n.children, e.range.contains p ∧ n.locate uri p = e.locate uri p ∧
      ∀ d ∈ n.children, d.range.contains p → d = e ∨ e.range.InOrder d.range := by
  rcases locate_cases huri with ⟨_, hlast⟩ | ⟨before, e, after, hs, he, hbefore, hl⟩
  · exact absurd hp (hlast c hc)
  · have hpairs := List.pairwise_map.1 hsorted
    rw [hs, List.pairwise_append, List.pairwise_cons] at hpairs
    refine ⟨e, hs ▸ List.mem_append_right _ List.mem_cons_self, he, hl, fun d hd hdp => ?_⟩
    rw [hs, List.mem_append, List.mem_cons] at hd
    rcases hd with hd | rfl | hd
    · exact absurd hdp (hbefore d hd)
    · exact .inl rfl
    · exact .inr (hpairs.2.1.1 d hd)

section

variable {t : Text} {parts : List Extent} {before after : List Node} {cover c : Node}
  (h : n.Overlaid parts before cover after)

include h

theorem Overlaid.cover_mem : cover ∈ n.children := by
  rw [h.split]
  exact List.mem_append_right _ List.mem_cons_self

theorem Overlaid.other_mem (hc : c ∈ before ++ after) : c ∈ n.children := by
  rw [h.split]
  exact List.perm_middle.symm.subset (List.mem_cons_of_mem cover hc)

theorem Overlaid.mem_cases (hc : c ∈ n.children) : c = cover ∨ c ∈ before ++ after := by
  rw [h.split] at hc
  exact List.mem_cons.1 (List.perm_middle.subset hc)

theorem Overlaid.range_mem (hc : c ∈ before ++ after) : c.range ∈ parts :=
  h.others.mem_iff.1 (List.mem_map_of_mem hc)

variable (huri : ∀ d ∈ n.nodes, d.uri = uri)
  (ht : ∀ e ∈ n.range :: parts, e.positions = t.positionsAt e.bytes)

include huri ht

/-- If the cover is found, nothing beside it has the position inside, and nothing that is entered
before it ends there. -/
theorem Overlaid.clear_of_innermost (hids : (n.nodes.map Node.id).Nodup)
    (hinner : n.Innermost p (n.locate uri p)) (hp : n.range.Surrounds p) {e : Extent}
    (he : e ∈ parts) :
    ¬ e.Surrounds p ∧ ¬ (e.bytes.start = n.range.bytes.start ∧ e.positions.stop = p) := by
  have hnode {c : Node} (hc : c ∈ n.children) : c ∈ n.nodes :=
    mem_nodes.2 (.inr ⟨c, hc, List.mem_cons_self⟩)
  have hapart {c m : Node} (hc : c ∈ before ++ after) (hm : m ∈ cover.nodes) : m ∉ c.nodes :=
    not_mem_nodes_of_apart hids h.split hc hm
  have hfound := hinner cover (hnode h.cover_mem) (h.covers ▸ hp)
  obtain ⟨c, hc, rfl⟩ := List.mem_map.1 (h.others.mem_iff.2 he)
  refine ⟨fun hs => ?_, fun ⟨hstart, hstop⟩ => ?_⟩
  · exact hapart hc hfound (hinner c (hnode (h.other_mem hc)) hs)
  · obtain ⟨hcontains, horder⟩ := Extent.contains_of_ends (ht _ List.mem_cons_self)
      (ht _ (List.mem_cons_of_mem _ he)) hp hstart hstop
    obtain ⟨e, he, hep, hl, hfirst⟩ :=
      locate_entered (uri_of_mem_children huri) h.sorted (h.other_mem hc) hcontains
    rcases h.mem_cases he with rfl | hother
    · rcases hfirst c (h.other_mem hc) hcontains with rfl | hlater
      · exact hapart hc hfound hfound
      · exact horder (h.covers ▸ hlater)
    · rw [hl] at hfound
      exact hapart hother hfound (locate_found (uri_of_child huri he) hep).mem

theorem Overlaid.innermost_of_clear (hin : ∀ e ∈ parts, n.range.bytes.Encloses e.bytes)
    (hclear : n.range.Surrounds p → ∀ e ∈ parts, ¬ e.Surrounds p ∧
      ¬ (e.bytes.start = n.range.bytes.start ∧ e.positions.stop = p)) :
    n.Innermost p (n.locate uri p) := by
  have hn := ht _ List.mem_cons_self
  have hpositions {c : Node} (hc : c ∈ before ++ after) :=
    ht c.range (List.mem_cons_of_mem _ (h.range_mem hc))
  have hlocate {c : Node} (hc : c ∈ n.children) (hp : c.range.contains p) :
      c.locate uri p ∈ c.nodes := (locate_found (uri_of_child huri hc) hp).mem
  intro d hd hp
  rcases mem_nodes.1 hd with rfl | ⟨c, hc, hd⟩
  · exact (locate_found huri hp.contains).mem
  rcases h.mem_cases hc with rfl | hc
  · have hd : d = c := by
      rcases mem_nodes.1 hd with rfl | ⟨e, he, _⟩
      · rfl
      · exact absurd (h.leaf ▸ he) List.not_mem_nil
    subst hd
    have hnp : n.range.Surrounds p := h.covers ▸ hp
    obtain ⟨e, he, hep, hl, hfirst⟩ :=
      locate_entered (uri_of_mem_children huri) h.sorted hc hp.contains
    rw [hl]
    -- the descent enters the cover, or something before it that would have to end at the position
    rcases hfirst d hc hp.contains with rfl | hlater
    · exact hlocate hc hep
    · rcases h.mem_cases he with rfl | hother
      · exact hlocate he hep
      · have hh := Extent.surrounds_or_ends hn (hpositions hother) (hin _ (h.range_mem hother))
          (h.covers ▸ hlater) hnp hep
        exact absurd hh (not_or.2 (hclear hnp e.range (h.range_mem hother)))
  · have hcp := (h.nested c hc).surrounds hd hp
    have hnp := Extent.surrounds_of_encloses hn (hpositions hc) (hin _ (h.range_mem hc)) hcp
    exact absurd hcp (hclear hnp c.range (h.range_mem hc)).1

end

end Node

namespace DraftContext

open Node SyntaxTree

variable (ctx : DraftContext)

theorem exists_overlaid {root : SyntaxTree} (hw : (root.head.wrong && root.kind != "module") = true)
    (h : root.Nested) :
    ∃ before cover after, (ctx.draftModule root).Overlaid
      ((root.rules ++ root.strays).map ctx.rangeOf) before cover after := by
  obtain ⟨cs, hmodule, hcs⟩ := ctx.exists_draftModule root
  rw [hw, if_pos rfl] at hcs
  have hperm := ((sortBy_perm inOrder cs).map bare).trans hcs
  have hmem := hperm.mem_iff.2 (List.mem_append_right _ (List.mem_singleton_self _))
  obtain ⟨cover, hcover, hbare⟩ := List.mem_map.1 hmem
  obtain ⟨before, after, hs⟩ := List.append_of_mem hcover
  have hrest : ((before ++ after).map bare).Perm
      ((root.rules ++ root.strays).map ctx.drafted ++ ([] : List SyntaxTree).map ctx.sign) := by
    rw [hs, List.map_append, List.map_cons, hbare] at hperm
    rw [List.map_nil, List.append_nil, List.map_append]
    exact (List.perm_middle.symm.trans (hperm.trans List.perm_append_comm)).cons_inv
  have hchildren : (ctx.draftModule root).children = sortBy inOrder cs := by
    rw [hmodule]
    rfl
  refine ⟨before, cover, after, hchildren.trans hs, ?_, ?_, ?_, fun c hc => ?_, ?_⟩
  · rw [← range_bare, hbare, hmodule, draftWrong, range_make, range_make]
  · have hleaf : cover.bare.children = [] := hbare ▸ rfl
    cases cover
    exact hleaf
  · have hranges := ctx.ranges_perm hrest
    rwa [List.append_nil] at hranges
  · rw [List.map_nil, List.append_nil] at hrest
    obtain ⟨t, ht, he⟩ := List.mem_map.1 (hrest.mem_iff.1 (List.mem_map_of_mem hc))
    have hnested := ctx.nested_drafted (h.child (root.rules_append_strays.subset ht))
    exact nested_bare.1 (he ▸ hnested)
  · rw [hchildren, List.pairwise_map]
    exact (pairwise_inOrder cs).imp inOrder_iff.1

end DraftContext

open Node

section

variable (build depth : Nat) (root : SyntaxTree) (document : Document) (answers : Answers)

theorem uri_linked : ∀ d ∈ ((draftModule build root document depth).link answers).nodes,
    d.uri = document.uri := by
  intro d hd
  rw [nodes_link] at hd
  obtain ⟨e, he, rfl⟩ := List.mem_map.1 hd
  have hdocument := (draftModule_nodes build root document depth e he).2.1
  rw [Node.uri, Node.document, info_link, ← Node.document, hdocument]

theorem range_linked : ((draftModule build root document depth).link answers).range =
    Extent.ofSpan document.text root.span := by
  obtain ⟨cs, hmodule, _⟩ :=
    DraftContext.exists_draftModule ⟨document, depth, .of document.text⟩ root
  rw [range_link, draftModule, range_number, hmodule, DraftContext.range_make]

end

/-- Inside the root no part of it has the position inside, and none that starts with the root ends
there. -/
def SyntaxTree.ClearAt (root : SyntaxTree) (text : Text) (p : Position) : Prop :=
  (Extent.ofSpan text root.span).Surrounds p → ∀ c ∈ root.rules ++ root.strays,
    ¬ (Extent.ofSpan text c.span).Surrounds p ∧
      ¬ ((Extent.ofSpan text c.span).bytes.start = (Extent.ofSpan text root.span).bytes.start ∧
        (Extent.ofSpan text c.span).positions.stop = p)

instance (root : SyntaxTree) (text : Text) (p : Position) : Decidable (root.ClearAt text p) :=
  inferInstanceAs (Decidable (_ → _))

theorem innermost_iff_clearAt (build depth : Nat) {root : SyntaxTree} (document : Document)
    (answers : Answers) (hw : (root.head.wrong && root.kind != "module") = true)
    (h : root.Nested) (p : Position) :
    let module := (draftModule build root document depth).link answers
    module.Innermost p (module.locate document.uri p) ↔ root.ClearAt document.text p := by
  intro module
  let ctx : DraftContext := ⟨document, depth, .of document.text⟩
  obtain ⟨_, _, _, hdraft⟩ := ctx.exists_overlaid hw h
  obtain ⟨before, cover, after, hoverlaid⟩ := hdraft.linked build 0 answers
  change module.Overlaid _ before cover after at hoverlaid
  have huri := uri_linked build depth root document answers
  have hrange : module.range = Extent.ofSpan document.text root.span :=
    range_linked build depth root document answers
  have hpositions : ∀ e ∈ module.range :: (root.rules ++ root.strays).map ctx.rangeOf,
      e.positions = document.text.positionsAt e.bytes := by
    rw [List.forall_mem_cons, hrange, List.forall_mem_map]
    exact ⟨Extent.positions_ofSpan _ _, fun c _ => Extent.positions_ofSpan _ _⟩
  have hin : ∀ e ∈ (root.rules ++ root.strays).map ctx.rangeOf,
      module.range.bytes.Encloses e.bytes := by
    rw [hrange, List.forall_mem_map]
    intro c hc
    exact Extent.ofSpan_encloses (h.encloses (root.rules_append_strays.subset hc)) _
  constructor
  · intro hinner hp c hc
    have hclear := hoverlaid.clear_of_innermost huri hpositions
      (ids_linked_nodup build depth root document answers) hinner (hrange ▸ hp)
      (List.mem_map_of_mem hc)
    rwa [hrange] at hclear
  · intro hclear
    refine hoverlaid.innermost_of_clear huri hpositions hin ?_
    rw [hrange, List.forall_mem_map]
    exact hclear

/-- A module that is built from a nested tree has a node at every position that it contains, and at
no other one; no child of that node contains the position.  The node is the innermost one, unless
the root made no sense and its cover competes with one of its parts. -/
theorem located_innermost_iff (build depth : Nat) {root : SyntaxTree} (document : Document)
    (answers : Answers) (h : root.Nested) (p : Position) :
    let module := (draftModule build root document depth).link answers
    (module.at? p = none ↔ ¬ module.range.contains p) ∧
      ∀ n, module.at? p = some n → module.Found p n ∧
        (module.Innermost p n ↔
          (root.head.wrong → root.kind ≠ "module" → root.ClearAt document.text p)) := by
  intro module
  have huri := uri_linked build depth root document answers
  have hmodule : module.uri = document.uri := huri module List.mem_cons_self
  have hat (hp : module.range.contains p) : module.at? p = some (module.locate document.uri p) := by
    rw [at?, if_pos hp, hmodule]
  have hout (hp : ¬ module.range.contains p) : module.at? p = none := if_neg hp
  refine ⟨⟨fun hnone hp => ?_, hout⟩, fun n hn => ?_⟩
  · rw [hat hp] at hnone
    cases hnone
  have hp : module.range.contains p := by
    by_contra hp
    rw [hout hp] at hn
    cases hn
  obtain rfl : module.locate document.uri p = n := Option.some.inj ((hat hp).symm.trans hn)
  refine ⟨locate_found huri hp, ?_⟩
  cases hw : root.head.wrong && root.kind != "module" with
  | false =>
    have hnested : module.Nested :=
      nested_link answers (nested_number build 0 (DraftContext.nested_of_kept _ hw h))
    refine iff_of_true (hnested.innermost_locate huri) fun hwrong hkind => ?_
    simp [hwrong, hkind] at hw
  | true =>
    obtain ⟨hwrong, hkind⟩ := Bool.and_eq_true_iff.1 hw
    refine (innermost_iff_clearAt build depth document answers hw h p).trans ?_
    exact ⟨fun hclear _ _ => hclear, fun hclear => hclear hwrong (bne_iff_ne.1 hkind)⟩

/-- A brace and a property that make no sense together. -/
def looseSketch : Sketch :=
  .wrong [.token "\x7b".toList, .spaced "classProperty" [.named "identifier" "total".toList,
    .token "=".toList, .spaced "variableExpr" [.named "identifier" "count".toList]]]

def looseTree : SyntaxTree := looseSketch.layout.2

def looseDocument : Document :=
  ⟨⟨"file:///loose.pkl".toList, by decide⟩, some 1, looseSketch.layout.1⟩

def looseModule : Node := (draftModule 0 looseTree looseDocument 0).link {}

/-- Before the property the cover is the innermost node, and nothing competes with it. -/
theorem located_innermost_iff_loose : looseTree.Nested ∧
    ∃ n, looseModule.at? ⟨0, 1⟩ = some n ∧ looseModule.Found ⟨0, 1⟩ n ∧
      looseModule.Innermost ⟨0, 1⟩ n := by
  have hnested : looseTree.Nested := by decide +kernel
  obtain ⟨hnone, hsome⟩ := located_innermost_iff 0 0 looseDocument {} hnested ⟨0, 1⟩
  have hin : looseModule.range.contains ⟨0, 1⟩ := by decide +kernel
  obtain ⟨n, hn⟩ := Option.ne_none_iff_exists'.1 fun h => hnone.1 h hin
  have hclear : looseTree.ClearAt looseDocument.text ⟨0, 1⟩ := by decide +kernel
  exact ⟨hnested, n, hn, (hsome n hn).1, (hsome n hn).2.2 fun _ _ => hclear⟩

/-- Inside the name that the property refers to the cover is found all the same. -/
theorem cover_hides_name : looseTree.Nested ∧
    ∃ n, looseModule.at? ⟨0, 12⟩ = some n ∧ ∃ d ∈ looseModule.nodes, d.range.Surrounds ⟨0, 12⟩ ∧
      d.label = .identifier "count".toList ∧ n ∉ d.nodes := by
  have hin : looseModule.range.contains ⟨0, 12⟩ := by decide +kernel
  have hname : ∃ d ∈ looseModule.nodes, d.range.Surrounds ⟨0, 12⟩ ∧
      d.label = .identifier "count".toList ∧
      (looseModule.locate looseModule.uri ⟨0, 12⟩).id ∉ d.nodes.map Node.id := by decide +kernel
  obtain ⟨d, hd, hp, hlabel, hapart⟩ := hname
  exact ⟨by decide +kernel, _, if_pos hin, d, hd, hp, hlabel,
    fun h => hapart (List.mem_map_of_mem h)⟩

end ModuleLens
