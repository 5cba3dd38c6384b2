import ModuleLens.Node.Navigation
import ModuleLens.Proofs.Node.Linking
import ModuleLens.Proofs.Node.Seats
import ModuleLens.Proofs.Text.Extents

/-! Modules in source order.  If the spans of a concrete tree are nested, so are the ranges of the
module drafted from it, whatever its document says: what a construct has children for lies in it,
the pieces lie apart from each other, and sorting puts pieces that lie apart one after the other.
The nodes below a nested node start one after the other. -/

namespace ModuleLens

namespace SyntaxTree

mutual

/-- A tree and the trees below it. -/
def subtrees : SyntaxTree → List SyntaxTree
  | node head children => node head children :: subtreesAll children

def subtreesAll : List SyntaxTree → List SyntaxTree
  | [] => []
  | t :: ts => subtrees t ++ subtreesAll ts

end

/-- Trees in which children lie in their parents, one after the other. -/
def Nested (t : SyntaxTree) : Prop := ∀ s ∈ t.subtrees, s.span.Holds (s.children.map span)

instance (t : SyntaxTree) : Decidable t.Nested :=
  inferInstanceAs (Decidable (∀ s ∈ t.subtrees, _))

/-- Trees that do not overlap. -/
def Apart (ts : List SyntaxTree) : Prop := ts.Pairwise fun a b => a.span.Apart b.span

theorem subtreesAll_eq (ts : List SyntaxTree) : subtreesAll ts = ts.flatMap subtrees := by
  induction ts with
  | nil => rfl
  | cons t ts ih => rw [subtreesAll, ih, List.flatMap_cons]

theorem subtrees_eq (t : SyntaxTree) : t.subtrees = t :: t.children.flatMap subtrees := by
  cases t
  rw [subtrees, subtreesAll_eq]
  rfl

theorem Apart.subperm {ts us : List SyntaxTree} (h : Apart ts) (hs : us.Subperm ts) :
    Apart us := by
  obtain ⟨l, hl, hsub⟩ := hs
  exact (hl.pairwise_iff Span.Apart.symm).1 (List.Pairwise.sublist hsub h)

/-- Pieces of trees that lie apart are apart if those of each tree are. -/
theorem Apart.flatMap {ts us : List SyntaxTree} {f : SyntaxTree → List SyntaxTree}
    (h : Apart (ts ++ us)) (hus : ∀ u ∈ us, u.span.Encloses u.span)
    (hf : ∀ t ∈ ts, Apart (f t) ∧ ∀ c ∈ f t, t.span.Encloses c.span) :
    Apart (ts.flatMap f ++ us) := by
  obtain ⟨hts, hus', hboth⟩ := List.pairwise_append.1 h
  refine List.pairwise_append.2 ⟨List.pairwise_flatMap.2 ⟨fun t ht => (hf t ht).1, ?_⟩, hus', ?_⟩
  · refine hts.imp_of_mem fun {a b} ha hb hab c hc d hd => ?_
    exact hab.within ((hf a ha).2 c hc) ((hf b hb).2 d hd)
  · intro c hc u hu
    obtain ⟨t, ht, hc⟩ := List.mem_flatMap.1 hc
    exact (hboth t ht u hu).within ((hf t ht).2 c hc) (hus u hu)

namespace Nested

variable {t c : SyntaxTree}

theorem holds (h : t.Nested) : t.span.Holds (t.children.map span) := by
  refine h t ?_
  rw [subtrees_eq]
  exact List.mem_cons_self

theorem child (h : t.Nested) (hc : c ∈ t.children) : c.Nested := by
  intro s hs
  refine h s ?_
  rw [subtrees_eq]
  exact List.mem_cons_of_mem t (List.mem_flatMap.2 ⟨c, hc, hs⟩)

theorem encloses (h : t.Nested) (hc : c ∈ t.children) : t.span.Encloses c.span :=
  h.holds.1 c.span (List.mem_map_of_mem hc)

theorem encloses_self (h : t.Nested) (hc : c ∈ t.children) : c.span.Encloses c.span :=
  ⟨Nat.le_refl _, (h.encloses hc).2.1, Nat.le_refl _⟩

theorem apart (h : t.Nested) : Apart t.children :=
  (List.pairwise_map.1 h.holds.pairwise).imp Or.inl

theorem admits (h : t.Nested) (hc : c ∈ t.children) (form : Form) :
    Apart (form.admits c) ∧
      ∀ d ∈ form.admits c, c.span.Encloses d.span ∧ d.Nested := by
  rcases form.admits_cases c with ha | ⟨_, ha⟩
  · rw [ha]
    refine ⟨List.pairwise_singleton _ c, fun d hd => ?_⟩
    cases List.mem_singleton.1 hd
    exact ⟨h.encloses_self hc, h.child hc⟩
  · refine ⟨(h.child hc).apart.subperm ha, fun d hd => ?_⟩
    exact ⟨(h.child hc).encloses (ha.subset hd), (h.child hc).child (ha.subset hd)⟩

end Nested

theorem signs_sublist (form : Form) (t : SyntaxTree) :
    (form.signs t).Sublist (t.children.filter isOperator) := by
  rw [Form.signs]
  split
  · rw [← List.head?_filter]
    cases t.children.filter isOperator with
    | nil => exact List.Sublist.refl _
    | cons c cs => exact List.singleton_sublist.2 List.mem_cons_self
  · exact List.nil_sublist _

/-- The rules that find a seat, the wrong parts and the operator of a construct are parts of it. -/
theorem seated_subperm_children (form : Form) (t : SyntaxTree) :
    (Seat.seated form.seats t.rules ++
      ((if form.isLeaf then [] else t.strays) ++ form.signs t)).Subperm t.children := by
  have hstrays : (if form.isLeaf then [] else t.strays).Sublist t.strays := by
    split
    · exact List.nil_sublist _
    · exact .refl _
  have hrest := (hstrays.append (signs_sublist form t)).subperm
  exact ((Seat.seated_subperm form.seats t.rules).append hrest).trans t.rules_strays_operators

theorem Nested.built {t : SyntaxTree} (h : t.Nested) (form : Form) :
    Apart (form.built t ++ form.signs t) ∧
      ∀ c ∈ form.built t ++ form.signs t, t.span.Encloses c.span ∧ c.Nested := by
  have hsub := seated_subperm_children form t
  have hchild {c : SyntaxTree} (hc : c ∈ (if form.isLeaf then [] else t.strays) ++ form.signs t) :
      c ∈ t.children := hsub.subset (List.mem_append_right _ hc)
  have hrule {r : SyntaxTree} (hr : r ∈ Seat.seated form.seats t.rules) : r ∈ t.children :=
    hsub.subset (List.mem_append_left _ hr)
  rw [Form.built, List.append_assoc]
  refine ⟨(h.apart.subperm hsub).flatMap (fun u hu => h.encloses_self (hchild hu)) fun r hr => ?_,
    fun c hc => ?_⟩
  · obtain ⟨hapart, hin⟩ := h.admits (hrule hr) form
    exact ⟨hapart, fun c hc => (hin c hc).1⟩
  · rcases List.mem_append.1 hc with hc | hc
    · obtain ⟨r, hr, hc⟩ := List.mem_flatMap.1 hc
      obtain ⟨hin, hnested⟩ := (h.admits (hrule hr) form).2 c hc
      exact ⟨(h.encloses (hrule hr)).trans hin, hnested⟩
    · exact ⟨h.encloses (hchild hc), h.child (hchild hc)⟩

end SyntaxTree

namespace Node

/-- Nodes whose children lie in them, one after the other, and so on below. -/
def Nested (n : Node) : Prop := ∀ d ∈ n.nodes, d.range.Holds (d.children.map range)

/-- Nodes that start one after the other. -/
def Ascending (ns : List Node) : Prop :=
  ns.Pairwise fun a b => a.range.bytes.start ≤ b.range.bytes.start

theorem nested_iff {n : Node} :
    n.Nested ↔ n.range.Holds (n.children.map range) ∧ ∀ c ∈ n.children, c.Nested := by
  constructor
  · intro h
    refine ⟨h n (mem_nodes.2 (.inl rfl)), fun c hc d hd => h d (mem_nodes.2 (.inr ⟨c, hc, hd⟩))⟩
  · rintro ⟨hin, hchildren⟩ d hd
    rcases mem_nodes.1 hd with rfl | ⟨c, hc, hd⟩
    · exact hin
    · exact hchildren c hc d hd

theorem range_bare (n : Node) : n.bare.range = n.range := by
  cases n
  rfl

theorem nested_bare {n : Node} : n.bare.Nested ↔ n.Nested := by
  rw [nested_iff, nested_iff]
  cases n
  exact .rfl

theorem ranges_numberAll (build next : Nat) (cs : List Node) :
    (numberAll build next cs).1.map range = cs.map range := by
  induction cs generalizing next with
  | nil => rfl
  | cons c cs ih =>
    have hc : (number build next c).1.range = c.range := by
      cases c
      rfl
    simp only [numberAll, List.map_cons, hc, ih]

mutual

theorem nested_number (build : Nat) :
    ∀ (next : Nat) {n : Node}, n.Nested → (number build next n).1.Nested
  | next, mk info label outcome children, h => by
    obtain ⟨hin, hchildren⟩ := nested_iff.1 h
    refine nested_iff.2 ⟨?_, nested_numberAll build (next + 1) hchildren⟩
    simp only [number, Node.children]
    rw [ranges_numberAll]
    exact hin

theorem nested_numberAll (build : Nat) :
    ∀ (next : Nat) {cs : List Node}, (∀ c ∈ cs, c.Nested) →
      ∀ c ∈ (numberAll build next cs).1, c.Nested
  | _, [], _ => fun _ h => nomatch h
  | next, c :: cs, h => by
    simp only [numberAll]
    refine List.forall_mem_cons.2 ⟨nested_number build next (h c List.mem_cons_self), ?_⟩
    exact nested_numberAll build _ fun d hd => h d (List.mem_cons_of_mem c hd)

end

theorem nested_link (answers : Answers) {n : Node} (h : n.Nested) : (n.link answers).Nested := by
  induction n using childInduction with
  | h n ih =>
    obtain ⟨hin, hchildren⟩ := nested_iff.1 h
    have hrange (m : Node) : (m.link answers).range = m.range :=
      congrArg NodeInfo.range (info_link answers m)
    have hranges : n.children.map (range ∘ link answers) = n.children.map range :=
      List.map_congr_left fun c _ => hrange c
    rw [nested_iff, children_link, List.map_map, hrange, hranges]
    exact ⟨hin, List.forall_mem_map.2 fun c hc => ih c hc (hchildren c hc)⟩

theorem Nested.child {n c : Node} (h : n.Nested) (hc : c ∈ n.children) : c.Nested :=
  (nested_iff.1 h).2 c hc

theorem Nested.encloses_child {n c : Node} (h : n.Nested) (hc : c ∈ n.children) :
    n.range.bytes.Encloses c.range.bytes :=
  (nested_iff.1 h).1.1.1 _ (List.mem_map_of_mem (List.mem_map_of_mem hc))

theorem Nested.encloses {n : Node} (h : n.Nested) :
    ∀ d ∈ n.descendants, n.range.bytes.Encloses d.range.bytes := by
  induction n using childInduction with
  | h n ih =>
    intro d hd
    obtain ⟨c, hc, hd⟩ := mem_descendants.1 hd
    rcases hd with rfl | hd
    · exact h.encloses_child hc
    · exact (h.encloses_child hc).trans (ih c hc (h.child hc) d hd)

theorem Nested.starts_within {n c d : Node} (h : n.Nested) (hc : c ∈ n.children)
    (hd : d ∈ c.nodes) :
    c.range.bytes.start ≤ d.range.bytes.start ∧ d.range.bytes.start ≤ c.range.bytes.stop := by
  rcases List.mem_cons.1 hd with rfl | hd
  · exact ⟨Nat.le_refl _, (h.encloses_child hc).2.1⟩
  · obtain ⟨hstart, hordered, hstop⟩ := (h.child hc).encloses d hd
    exact ⟨hstart, Nat.le_trans hordered hstop⟩

theorem Nested.ascending {n : Node} (h : n.Nested) : Ascending n.descendants := by
  induction n using childInduction with
  | h n ih =>
    have hbetween := List.pairwise_map.1 (List.pairwise_map.1 (nested_iff.1 h).1.1.pairwise)
    rw [descendants_eq, Ascending, List.pairwise_flatMap]
    refine ⟨fun c hc => ?_, hbetween.imp_of_mem fun {a b} ha hb hab d hd e he => ?_⟩
    · refine List.pairwise_cons.2 ⟨fun d hd => ?_, ih c hc (h.child hc)⟩
      exact ((h.child hc).encloses d hd).1
    · have hd := (h.starts_within ha hd).2
      have he := (h.starts_within hb he).1
      omega

end Node

namespace DraftContext

open Node SyntaxTree

variable (ctx : DraftContext)

theorem range_make (span : Span) (label : Label) (cs : List Node) :
    (ctx.make span label cs).range = Extent.ofSpan ctx.document.text span :=
  ctx.scale.extent_eq span

/-- The range of the draft of a tree. -/
def rangeOf (t : SyntaxTree) : Extent := Extent.ofSpan ctx.document.text t.span

theorem range_drafted (t : SyntaxTree) : (ctx.drafted t).range = ctx.rangeOf t := by
  cases hw : t.head.wrong with
  | true => rw [ctx.drafted_of_wrong hw, draftWrong, range_make, rangeOf]
  | false => rw [ctx.drafted_of_right hw, construct, range_make, rangeOf]

theorem inOrder_iff {a b : Node} : inOrder a b ↔ a.range.InOrder b.range := by
  simp [inOrder, Extent.InOrder]

theorem pairwise_inOrder (cs : List Node) : (sortBy inOrder cs).Pairwise (inOrder · ·) := by
  refine pairwise_sortBy (fun a b c hab hbc => ?_) (fun a b => ?_) cs
  · rw [inOrder_iff, Extent.InOrder] at hab hbc ⊢
    omega
  · rw [inOrder_iff, inOrder_iff, Extent.InOrder, Extent.InOrder]
    omega

theorem isChain_sorted {cs : List Node}
    (hordered : ∀ c ∈ cs, c.range.bytes.start ≤ c.range.bytes.stop)
    (hapart : cs.Pairwise fun a b => a.range.Apart b.range) :
    (sortBy inOrder cs).IsChain fun a b => a.range.bytes.stop ≤ b.range.bytes.start := by
  have hperm := sortBy_perm inOrder cs
  have hsorted := (hperm.pairwise_iff Extent.Apart.symm).2 hapart
  refine (((pairwise_inOrder cs).and hsorted).imp_of_mem fun {a b} ha hb hab => ?_).isChain
  have horder := inOrder_iff.1 hab.1
  have hb := hordered b (hperm.mem_iff.1 hb)
  rw [Extent.InOrder] at horder
  rcases hab.2 with h | h <;> omega

variable {span : Span} {label : Label} {cs : List Node} {ts signs : List SyntaxTree}

theorem ranges_perm (hcs : (cs.map bare).Perm (ts.map ctx.drafted ++ signs.map ctx.sign)) :
    (cs.map range).Perm ((ts ++ signs).map ctx.rangeOf) := by
  have hbare : cs.map range = (cs.map bare).map range := by
    rw [List.map_map]
    exact List.map_congr_left fun c _ => (range_bare c).symm
  rw [hbare]
  refine (hcs.map range).trans (.of_eq ?_)
  rw [List.map_append, List.map_append, List.map_map, List.map_map]
  congr 1
  · exact List.map_congr_left fun t _ => ctx.range_drafted t
  · exact List.map_congr_left fun t _ => ctx.range_make t.span _ []

theorem holds_make (hranges : (cs.map range).Perm (ts.map ctx.rangeOf))
    (hin : ∀ t ∈ ts, span.Encloses t.span) (hapart : Apart ts) :
    (ctx.make span label cs).range.Holds ((ctx.make span label cs).children.map range) := by
  have htree {c : Node} (hc : c ∈ cs) : ∃ t ∈ ts, c.range = ctx.rangeOf t := by
    obtain ⟨t, ht, he⟩ := List.mem_map.1 (hranges.mem_iff.1 (List.mem_map_of_mem hc))
    exact ⟨t, ht, he.symm⟩
  have hsorted {c : Node} (hc : c ∈ sortBy inOrder cs) : ∃ t ∈ ts, c.range = ctx.rangeOf t :=
    htree ((sortBy_perm inOrder cs).mem_iff.1 hc)
  have hextents : (ts.map ctx.rangeOf).Pairwise Extent.Apart := by
    refine List.pairwise_map.2 (hapart.imp_of_mem fun {a b} ha hb hab => ?_)
    exact Extent.ofSpan_apart hab (hin a ha).2.1 (hin b hb).2.1 _
  have hcs : (cs.map range).Pairwise Extent.Apart :=
    (hranges.pairwise_iff Extent.Apart.symm).2 hextents
  have hordered (c : Node) (hc : c ∈ cs) : c.range.bytes.start ≤ c.range.bytes.stop := by
    obtain ⟨t, _, ht⟩ := htree hc
    rw [ht]
    exact Extent.ofSpan_ordered _ t.span
  have hchain := isChain_sorted hordered (List.pairwise_map.1 hcs)
  refine Extent.holds_of_bytes (t := ctx.document.text) ?_ ⟨?_, ?_⟩
  · rw [range_make]
    refine List.forall_mem_cons.2 ⟨Extent.positions_ofSpan _ span, List.forall_mem_map.2 ?_⟩
    intro c hc
    obtain ⟨t, _, ht⟩ := hsorted hc
    rw [ht]
    exact Extent.positions_ofSpan _ t.span
  · rw [range_make]
    refine List.forall_mem_map.2 (List.forall_mem_map.2 fun c hc => ?_)
    obtain ⟨t, hmem, ht⟩ := hsorted hc
    rw [ht]
    exact Extent.ofSpan_encloses (hin t hmem) _
  · exact (List.isChain_map _).2 ((List.isChain_map _).2 hchain)

theorem nested_make (ts signs : List SyntaxTree)
    (hcs : (cs.map bare).Perm (ts.map ctx.drafted ++ signs.map ctx.sign))
    (hin : ∀ t ∈ ts ++ signs, span.Encloses t.span) (hapart : Apart (ts ++ signs))
    (hnested : ∀ t ∈ ts, (ctx.drafted t).Nested) : (ctx.make span label cs).Nested := by
  have hsign (t : SyntaxTree) : (ctx.sign t).Nested :=
    nested_iff.2 ⟨⟨⟨nofun, .nil⟩, ⟨nofun, .nil⟩⟩, fun c hc => nomatch hc⟩
  refine nested_iff.2 ⟨ctx.holds_make (ctx.ranges_perm hcs) hin hapart, fun c hc => ?_⟩
  have hm := hcs.mem_iff.1 (List.mem_map_of_mem ((sortBy_perm inOrder cs).mem_iff.1 hc))
  rcases List.mem_append.1 hm with hm | hm
  · obtain ⟨t, ht, he⟩ := List.mem_map.1 hm
    exact nested_bare.1 (he ▸ hnested t ht)
  · obtain ⟨t, _, he⟩ := List.mem_map.1 hm
    exact nested_bare.1 (he ▸ hsign t)

theorem nested_drafted {t : SyntaxTree} (h : t.Nested) : (ctx.drafted t).Nested := by
  cases hw : t.head.wrong with
  | true =>
    rw [ctx.drafted_of_wrong hw]
    exact ctx.nested_make [] [] (.refl _) nofun .nil nofun
  | false =>
    obtain ⟨hapart, hin⟩ := h.built (.ofKind t.kind)
    rw [ctx.drafted_of_right hw, construct]
    refine ctx.nested_make _ _ (ctx.childrenOf_perm _ t) (fun c hc => (hin c hc).1) hapart
      fun c hc => ?_
    -- The recursion is on the size of the tree: what an argument list hands on is two levels below.
    have hlt := Form.sizeOf_lt_of_mem_built hc
    exact nested_drafted (hin c (List.mem_append_left _ hc)).2
termination_by sizeOf t

theorem nested_of_kept {root : SyntaxTree}
    (hw : (root.head.wrong && root.kind != "module") = false) (h : root.Nested) :
    (ctx.draftModule root).Nested := by
  obtain ⟨cs, hmodule, hcs⟩ := ctx.exists_draftModule root
  rw [hw] at hcs
  have hsub := root.rules_append_strays
  rw [hmodule]
  refine ctx.nested_make (root.rules ++ root.strays) [] hcs ?_ ?_ fun c hc =>
    ctx.nested_drafted (h.child (hsub.subset hc))
  · rw [List.append_nil]
    exact fun c hc => h.encloses (hsub.subset hc)
  · rw [List.append_nil]
    exact h.apart.subperm hsub

theorem nested_draftModule {root : SyntaxTree} (hw : root.head.wrong = false) (h : root.Nested) :
    (ctx.draftModule root).Nested :=
  ctx.nested_of_kept (by simp [hw]) h

end DraftContext

open Node

/-- A module in which ranges are nested and all lists of nodes are in source order. -/
structure Node.InSourceOrder (module : Node) : Prop where
  nested : module.Nested
  descendants : Ascending module.descendants
  identifiers : Ascending module.identifiers
  classes : Ascending module.classes
  imports : Ascending module.imports

/-- Whatever the document and the answers to imports are, a module that is built from a nested tree
whose root made sense is in source order. -/
theorem module_inSourceOrder (build depth : Nat) {root : SyntaxTree} (document : Document)
    (answers : Answers) (hw : root.head.wrong = false) (h : root.Nested) :
    ((draftModule build root document depth).link answers).InSourceOrder := by
  have hnested : ((draftModule build root document depth).link answers).Nested :=
    nested_link answers (nested_number build 0 (DraftContext.nested_draftModule _ hw h))
  have hascending := hnested.ascending
  exact ⟨hnested, hascending, hascending.filter _, hascending.filter _, hascending.filter _⟩

/-- A sum with an empty operator and a wrong word between its sides. -/
def sumTree : SyntaxTree :=
  .rule "module" ⟨0, 9⟩ [.rule "binaryExpr" ⟨1, 9⟩ [.leaf "identifier" ⟨1, 3⟩, .token "+" ⟨3, 3⟩,
    .node { kind := "ERROR", named := true, wrong := true, span := ⟨4, 5⟩ } [],
    .leaf "identifier" ⟨6, 9⟩]]

/-- A text that is too short for the sum, and in which some of its pieces start inside scalars. -/
def shortDocument : Document := ⟨⟨"file:///short.pkl".toList, by decide⟩, some 1, "éa\néé".toList⟩

theorem module_inSourceOrder_sum : sumTree.head.wrong = false ∧ sumTree.Nested ∧
    ((draftModule 0 sumTree shortDocument 0).link {}).InSourceOrder ∧
    ((draftModule 0 sumTree shortDocument 0).link {}).descendants.map (fun d => d.range.bytes) =
      [⟨0, 8⟩, ⟨0, 3⟩, ⟨3, 3⟩, ⟨4, 4⟩, ⟨6, 8⟩] := by
  have hw : sumTree.head.wrong = false := rfl
  have hnested : sumTree.Nested := by decide +kernel
  exact ⟨hw, hnested, module_inSourceOrder 0 0 shortDocument {} hw hnested, by decide +kernel⟩

end ModuleLens
