import ModuleLens.Proofs.Node.Diagnostics
import ModuleLens.Proofs.Node.Linking
import ModuleLens.Proofs.Node.Seats
import ModuleLens.Sketch

/-! Comments and absent nodes.  A construct sees of its parts only those that leave a trace, and of
these only what they are, their drafts and the rules in them.  So a tree can be relieved of any
comments and absent nodes below its root, and still gives the same draft. -/

namespace ModuleLens

/-- A part without what is in it. -/
def Part.shell (p : Part) : Part := ⟨.node p.tree.head [], p.node, []⟩

/-- What a construct can see of a part. -/
def Part.core (p : Part) : Part :=
  ⟨.node p.tree.head [], p.node, (Parts.ofList p.parts).named.map Part.shell⟩

/-- Parts of which only what a construct can see is left. -/
def Parts.core (ps : Parts) : Parts := ⟨ps.visible.map Part.core⟩

section

variable (ps : List Part)

theorem filter_core {f : Part → Bool} (h : ∀ p, f p.core = f p) :
    (ps.map Part.core).filter f = (ps.filter f).map Part.core := by
  rw [List.filter_map, show f ∘ Part.core = f from funext h]

theorem find?_core {f : Part → Bool} (h : ∀ p, f p.core = f p) :
    (ps.map Part.core).find? f = (ps.find? f).map Part.core := by
  rw [List.find?_map, show f ∘ Part.core = f from funext h]

theorem place_core (role : Role) : place role (ps.map Part.core) = place role ps := by
  rw [place, List.map_map]
  rfl

theorem pick_core (role : Role) (kinds : List String) :
    pick role kinds (ps.map Part.core) = pick role kinds ps := by
  rw [pick, find?_core ps fun _ => rfl, Option.map_map]
  rfl

theorem leave_core (kinds : List String) :
    leave kinds (ps.map Part.core) = (leave kinds ps).map Part.core :=
  List.eraseP_map ..

theorem pickAll_core (role : Role) (kind : String) :
    pickAll role kind (ps.map Part.core) = pickAll role kind ps := by
  rw [pickAll, filter_core ps fun _ => rfl, List.map_map]
  rfl

theorem expressions_core : expressions (ps.map Part.core) = (expressions ps).map Part.core :=
  filter_core ps fun _ => rfl

end

namespace Parts

variable (ps : Parts)

theorem named_core : ps.core.named = ps.named.map Part.core := filter_core ps.visible fun _ => rfl

theorem tokens_core : ps.core.tokens = ps.tokens := by
  have hh : (ps.visible.map Part.core).filter Part.isToken =
      (ps.visible.filter Part.isToken).map Part.core := filter_core ps.visible fun _ => rfl
  rw [tokens, core, hh, List.map_map]
  rfl

theorem hasToken_core (token : String) : ps.core.hasToken token = ps.hasToken token := by
  rw [hasToken, tokens_core]
  rfl

theorem recovered_core : ps.core.recovered = ps.recovered := by
  have hh : (ps.visible.map Part.core).filter Part.isWrong =
      (ps.visible.filter Part.isWrong).map Part.core := filter_core ps.visible fun _ => rfl
  rw [recovered, core, hh, List.map_map]
  rfl

theorem shells_core : ps.core.named.map Part.shell = ps.named.map Part.shell := by
  rw [named_core, List.map_map]
  rfl

theorem core_ofList_cons (p : Part) (qs : List Part) :
    (Parts.ofList (p :: qs)).core =
      ⟨(if p.core.isVisible then [p.core] else []) ++ (Parts.ofList qs).core.visible⟩ := by
  have hvisible : p.core.isVisible = p.isVisible := rfl
  simp only [core, ofList, List.filter_cons, hvisible]
  split <;> rfl

end Parts

namespace DraftContext

theorem inner_core (p : Part) :
    (Parts.ofList p.core.parts).named = (Parts.ofList p.parts).named.map Part.shell := by
  have hkeep {f : Part → Bool} (hf : ∀ q, f q.shell = f q)
      (hall : ∀ q ∈ (Parts.ofList p.parts).named, f q) :
      ((Parts.ofList p.parts).named.map Part.shell).filter f =
        (Parts.ofList p.parts).named.map Part.shell := by
    refine List.filter_eq_self.2 (List.forall_mem_map.2 fun q hq => ?_)
    rw [hf]
    exact hall q hq
  have hvisible : ∀ q ∈ (Parts.ofList p.parts).named, q.isVisible := by
    intro q hq
    exact (List.mem_filter.1 (List.mem_filter.1 hq).1).2
  have hnamed : ∀ q ∈ (Parts.ofList p.parts).named, q.isNamed := by
    intro q hq
    exact (List.mem_filter.1 hq).2
  change (((Parts.ofList p.parts).named.map Part.shell).filter Part.isVisible).filter
    Part.isNamed = _
  rw [hkeep (fun _ => rfl) hvisible, hkeep (fun _ => rfl) hnamed]

theorem argumentsOf_core (p : Part) : argumentsOf p.core = argumentsOf p := by
  rw [argumentsOf, argumentsOf, inner_core, place, List.map_map]
  rfl

theorem superclass_core (ps : List Part) : superclass (ps.map Part.core) = superclass ps := by
  have hfind : (ps.map Part.core).find? (fun p => p.kind == "classExtendsClause") =
      (ps.find? fun p => p.kind == "classExtendsClause").map Part.core := find?_core ps fun _ => rfl
  rw [superclass, superclass, hfind]
  cases ps.find? fun p => p.kind == "classExtendsClause" with
  | none => rfl
  | some p =>
    rw [Option.map_some]
    simp only [inner_core, pick, List.find?_map, Option.map_map]
    rfl

theorem leftOver_core (n : Nat) (ps : List Part) :
    operands.leftOver n (ps.map Part.core) = (operands.leftOver n ps).map Part.core := by
  have hwrong (p : Part) : p.core.isWrong = p.isWrong := rfl
  have hnamed (p : Part) : p.core.isNamed = p.isNamed := rfl
  fun_induction operands.leftOver n ps with
  | case1 => rfl
  | case2 n p ps hw ih => simp [operands.leftOver, hwrong, hw, ih]
  | case3 p ps hw hn ih => simp [operands.leftOver, hwrong, hnamed, hw, hn, ih]
  | case4 p ps hw hn n ih => simp [operands.leftOver, hwrong, hnamed, hw, hn, ih]
  | case5 n p ps hw hn ih => simp [operands.leftOver, hwrong, hnamed, hw, hn, ih]

variable (ctx : DraftContext) (ps : Parts)

theorem modifiers_core : ctx.modifiers ps.core = ctx.modifiers ps := by
  have hh : (ps.named.map Part.core).filter (fun p => p.kind == "modifier") =
      (ps.named.filter fun p => p.kind == "modifier").map Part.core := filter_core _ fun _ => rfl
  rw [modifiers, modifiers, ps.tokens_core, ps.named_core, hh, List.map_map]
  rfl

theorem operands_core : ctx.operands ps.core = ctx.operands ps := by
  have hsign : ps.core.visible.find? (fun p => p.isToken && operatorWords.contains p.kind) =
      (ps.visible.find? fun p => p.isToken && operatorWords.contains p.kind).map Part.core :=
    find?_core ps.visible fun _ => rfl
  have hrest : operands.leftOver 2 ps.core.visible =
      (operands.leftOver 2 ps.visible).map Part.core := leftOver_core 2 ps.visible
  simp only [operands, ps.named_core, hsign, hrest, ← List.map_take, ← List.map_drop, List.map_map,
    Option.map_map]
  rfl

theorem childrenOf_core (form : Form) : ctx.childrenOf ps.core form = ctx.childrenOf ps form := by
  have hothers : (ps.named.map Part.core).filter (fun p => p.kind != "objectBody") =
      (ps.named.filter fun p => p.kind != "objectBody").map Part.core := filter_core _ fun _ => rfl
  have hcall (qs : List Part) :
      (qs.map Part.core).flatMap argumentsOf = qs.flatMap argumentsOf := by
    rw [List.flatMap_map]
    exact List.flatMap_congr fun p _ => argumentsOf_core p
  cases form
  case binaryExpression => exact ctx.operands_core ps
  all_goals
    simp only [childrenOf, propertyChildren, entryChildren, ps.named_core, ps.recovered_core,
      pick_core, leave_core, place_core, pickAll_core, hothers, expressions_core, superclass_core,
      hcall, ← List.map_take, ← List.map_drop]

theorem labelOf_core (tree : SyntaxTree) (form : Form) :
    ctx.labelOf tree ps.core form = ctx.labelOf tree ps form := by
  cases form
  all_goals simp only [labelOf, modifiers_core, ps.hasToken_core]

end DraftContext

namespace SyntaxTree

mutual

/-- A tree without some of the comments and absent nodes below its root. -/
inductive Sheds : SyntaxTree → SyntaxTree → Prop
  | node (head : SyntaxHead) {ts us : List SyntaxTree} (h : ShedsAll ts us) :
      Sheds (.node head ts) (.node head us)

inductive ShedsAll : List SyntaxTree → List SyntaxTree → Prop
  | nil : ShedsAll [] []
  | keep {t u : SyntaxTree} {ts us : List SyntaxTree} (h : Sheds t u) (hs : ShedsAll ts us) :
      ShedsAll (t :: ts) (u :: us)
  | drop {t : SyntaxTree} {ts us : List SyntaxTree} (h : t.isVisible = false)
      (hs : ShedsAll ts us) : ShedsAll (t :: ts) us

end

variable {t u : SyntaxTree} {ts us : List SyntaxTree}

theorem Sheds.head_eq (h : Sheds t u) : t.head = u.head := by
  obtain ⟨head, _⟩ := h
  rfl

/-- Of what leaves no trace nothing is found that is no comment and not absent. -/
theorem not_of_invisible {f : SyntaxHead → Bool} (h : t.isVisible = false)
    (hf : ∀ head, f head → head.absent = false ∧ isCommentKind head.kind = false) :
    f t.head = false := by
  refine Bool.eq_false_iff.2 fun ht => ?_
  obtain ⟨ha, hc⟩ := hf t.head ht
  have hv : t.isVisible := by
    rw [isVisible, kind, ha, hc]
    rfl
  rw [h] at hv
  cases hv

theorem ShedsAll.any_eq {f : SyntaxHead → Bool}
    (hf : ∀ head, f head → head.absent = false ∧ isCommentKind head.kind = false) :
    ∀ {ts us : List SyntaxTree}, ShedsAll ts us →
      (ts.any fun t => f t.head) = us.any fun t => f t.head
  | _, _, .nil => rfl
  | _, _, .keep h hs => by
    rw [List.any_cons, List.any_cons, h.head_eq, hs.any_eq hf]
  | _, _, .drop h hs => by
    rw [List.any_cons, not_of_invisible h hf, hs.any_eq hf, Bool.false_or]

theorem ShedsAll.find?_eq {f : SyntaxHead → Bool}
    (hf : ∀ head, f head → head.absent = false ∧ isCommentKind head.kind = false) :
    ∀ {ts us : List SyntaxTree}, ShedsAll ts us →
      (ts.find? fun t => f t.head).map head = (us.find? fun t => f t.head).map head
  | _, _, .nil => rfl
  | _, _, .keep h hs => by
    rw [List.find?_cons, List.find?_cons, h.head_eq]
    split
    · exact congrArg some h.head_eq
    · exact hs.find?_eq hf
  | _, _, .drop h hs => by
    rw [List.find?_cons, not_of_invisible h hf]
    exact hs.find?_eq hf

theorem ShedsAll.importKind?_eq (h : ShedsAll ts us) (kind : String) :
    importKind? kind ts = importKind? kind us := by
  have htoken {token : String} (ht : isCommentKind token = false) :
      hasToken ts token = hasToken us token := by
    let f (head : SyntaxHead) : Bool := !head.named && !head.absent && head.kind == token
    have hf (head : SyntaxHead) (hh : f head) :
        head.absent = false ∧ isCommentKind head.kind = false := by
      simp only [f, Bool.and_eq_true, Bool.not_eq_true', beq_iff_eq] at hh
      exact ⟨hh.1.2, hh.2 ▸ ht⟩
    exact h.any_eq hf
  rw [importKind?, importKind?, htoken (by decide), htoken (by decide)]

theorem ShedsAll.importPath?_eq (h : ShedsAll ts us) {text : Text} (scale : Scale text) :
    importPath? scale ts = importPath? scale us := by
  let f (head : SyntaxHead) : Bool := head.named && !head.absent && isLiteralKind head.kind
  have hf (head : SyntaxHead) (hh : f head) :
      head.absent = false ∧ isCommentKind head.kind = false := by
    simp only [f, Bool.and_eq_true, Bool.not_eq_true', isLiteralKind, Bool.or_eq_true,
      beq_iff_eq] at hh
    refine ⟨hh.1.2, ?_⟩
    rcases hh.2 with (hk | hk) | hk
    all_goals
      rw [hk]
      decide
  have hh := congrArg (Option.map fun head => Text.literalBody (scale.slice head.span))
    (h.find?_eq hf)
  rwa [Option.map_map, Option.map_map] at hh

end SyntaxTree

namespace DraftContext

open SyntaxTree

variable (ctx : DraftContext)

theorem labelOf_sheds {head : SyntaxHead} {ts us : List SyntaxTree} (h : ShedsAll ts us)
    (ps : Parts) (form : Form) :
    ctx.labelOf (.node head ts) ps form = ctx.labelOf (.node head us) ps form := by
  cases form
  case importClause =>
    simp only [labelOf, SyntaxTree.children, h.importKind?_eq, h.importPath?_eq]
    rfl
  all_goals rfl

/-- A construct sees the same parts in its tree when comments and absent nodes are gone. -/
theorem construct_sheds {head : SyntaxHead} {ts us : List SyntaxTree} (h : ShedsAll ts us)
    {ps qs : Parts} (hps : ps.core = qs.core) (form : Form) :
    ctx.construct form (.node head ts) ps = ctx.construct form (.node head us) qs := by
  have hlabel : ctx.labelOf (.node head ts) ps form = ctx.labelOf (.node head us) qs form := by
    rw [← labelOf_core, hps, labelOf_core, ctx.labelOf_sheds h]
  have hchildren : ctx.childrenOf ps form = ctx.childrenOf qs form := by
    rw [← childrenOf_core, hps, childrenOf_core]
  rw [construct, construct, hlabel, hchildren]
  rfl

mutual

theorem core_sheds : ∀ {t u : SyntaxTree}, Sheds t u →
    (ctx.draftPart t).core = (ctx.draftPart u).core
  | _, _, @Sheds.node head ts us h => by
    -- What a construct sees are the cores of its parts, and they are the same on both sides.
    have hps := core_shedsAll h
    have hinner : (Parts.ofList (ctx.draftAll ts)).named.map Part.shell =
        (Parts.ofList (ctx.draftAll us)).named.map Part.shell := by
      rw [← Parts.shells_core, hps, Parts.shells_core]
    simp only [draftPart, Part.core, hinner, ctx.construct_sheds h hps]
    rfl

theorem core_shedsAll : ∀ {ts us : List SyntaxTree}, ShedsAll ts us →
    (Parts.ofList (ctx.draftAll ts)).core = (Parts.ofList (ctx.draftAll us)).core
  | _, _, .nil => rfl
  | _, _, .keep h hs => by
    rw [draftAll, draftAll, Parts.core_ofList_cons, Parts.core_ofList_cons, core_sheds h,
      core_shedsAll hs]
  | _, _, @ShedsAll.drop t ts us h hs => by
    have hv : (ctx.draftPart t).core.isVisible = false := by
      rw [← h, Part.isVisible, Part.kind, Part.core]
      simp only [tree_draftPart]
      rfl
    rw [draftAll, Parts.core_ofList_cons, hv, core_shedsAll hs]
    rfl

end

theorem draftModule_sheds {root root' : SyntaxTree} (h : Sheds root root') :
    ctx.draftModule root = ctx.draftModule root' := by
  cases h with
  | @node head ts us hs =>
    have hps := ctx.core_shedsAll hs
    have hnamed : place .member (Parts.ofList (ctx.draftAll ts)).named =
        place .member (Parts.ofList (ctx.draftAll us)).named := by
      rw [← place_core, ← Parts.named_core, hps, Parts.named_core, place_core]
    have hrecovered : (Parts.ofList (ctx.draftAll ts)).recovered =
        (Parts.ofList (ctx.draftAll us)).recovered := by
      rw [← Parts.recovered_core, hps, Parts.recovered_core]
    have hmodule : ctx.construct .module (.node head ts) _ =
        ctx.construct .module (.node head us) _ :=
      ctx.construct_sheds hs hps .module
    simp only [draftModule, SyntaxTree.children, hnamed, hrecovered, hmodule]
    rfl

end DraftContext

namespace Sketch

mutual

/-- A sketch without the absent pieces below its root. -/
def trimmed : Sketch → Sketch
  | group kind wrong separator children => group kind wrong separator (trimmedAll children)
  | leaf kind named text => leaf kind named text
  | absent kind => absent kind

def trimmedAll : List Sketch → List Sketch
  | [] => []
  | p :: ps => if p.isAbsent then trimmedAll ps else trimmed p :: trimmedAll ps

end

theorem isAbsent_trimmed (p : Sketch) : p.trimmed.isAbsent = p.isAbsent := by
  cases p <;> rfl

theorem layoutAll_of_absent {p : Sketch} (h : p.isAbsent) (offset : Nat) (separator : Text)
    (begun : Bool) (ps : List Sketch) :
    layoutAll offset separator begun (p :: ps) =
      ((layoutAll offset separator begun ps).1,
        (layoutAt offset p).2 :: (layoutAll offset separator begun ps).2) := by
  cases p with
  | absent kind => simp [layoutAll, layoutAt, isAbsent]
  | _ => cases h

mutual

/-- Without its absent pieces a sketch is laid out just as before. -/
theorem layoutAt_trimmed : ∀ (offset : Nat) (p : Sketch),
    (layoutAt offset p.trimmed).1 = (layoutAt offset p).1 ∧
      (layoutAt offset p).2.Sheds (layoutAt offset p.trimmed).2
  | offset, group kind wrong separator children => by
    obtain ⟨htext, htrees⟩ := layoutAll_trimmed offset separator false children
    rw [trimmed, layoutAt, layoutAt]
    simp only [htext]
    exact ⟨trivial, .node _ htrees⟩
  | offset, leaf kind named text => ⟨rfl, .node _ .nil⟩
  | offset, absent kind => ⟨rfl, .node _ .nil⟩

theorem layoutAll_trimmed : ∀ (offset : Nat) (separator : Text) (begun : Bool) (ps : List Sketch),
    (layoutAll offset separator begun (trimmedAll ps)).1 = (layoutAll offset separator begun ps).1 ∧
      SyntaxTree.ShedsAll (layoutAll offset separator begun ps).2
        (layoutAll offset separator begun (trimmedAll ps)).2
  | _, _, _, [] => ⟨rfl, .nil⟩
  | offset, separator, begun, p :: ps => by
    rw [trimmedAll]
    cases h : p.isAbsent with
    | true =>
      obtain ⟨htext, htrees⟩ := layoutAll_trimmed offset separator begun ps
      have hv : (layoutAt offset p).2.isVisible = false := by
        cases p with
        | absent kind => rfl
        | _ => cases h
      rw [layoutAll_of_absent h, if_pos rfl]
      exact ⟨htext, .drop hv htrees⟩
    | false =>
      let start := offset + (if begun then separator else []).byteLength
      obtain ⟨htext, htree⟩ := layoutAt_trimmed start p
      obtain ⟨hrest, htrees⟩ :=
        layoutAll_trimmed (start + (layoutAt start p).1.byteLength) separator true ps
      simp only [layoutAll, isAbsent_trimmed, h, Bool.false_eq_true, if_false, Bool.not_false,
        Bool.and_true, Bool.or_true]
      change _ ++ (layoutAt start p.trimmed).1 ++ _ = _ ++ (layoutAt start p).1 ++ _ ∧ _
      rw [htext, hrest]
      exact ⟨rfl, .keep htree htrees⟩

end

theorem layout_trimmed (p : Sketch) : p.trimmed.layout.1 = p.layout.1 := (layoutAt_trimmed 0 p).1

theorem layout_sheds (p : Sketch) : p.layout.2.Sheds p.trimmed.layout.2 := (layoutAt_trimmed 0 p).2

end Sketch

open Node

/-- Modules that differ in the identities of their nodes at most. -/
structure Node.Same (m n : Node) : Prop where
  plain : m.plain = n.plain
  diagnostics : m.diagnostics = n.diagnostics

/-- If imports are answered by what is asked for only, comments and absent nodes below the root of a
tree make no difference to the module that is built from it.  Absent pieces of a sketch make none to
its text either. -/
theorem sheds_builds_same (build build' depth : Nat) (document : Document)
    {answer answer' : ImportEdge → Outcome Node}
    (h : ∀ edge, plainOutcome (answer edge) = plainOutcome (answer' edge)) :
    (∀ root root' : SyntaxTree, root.Sheds root' →
      (linkModule (draftModule build root document depth) answer).Same
        (linkModule (draftModule build' root' document depth) answer')) ∧
    ∀ p : Sketch, p.trimmed.layout.1 = p.layout.1 ∧
      (linkModule (draftModule build p.layout.2 document depth) answer).Same
        (linkModule (draftModule build' p.trimmed.layout.2 document depth) answer') := by
  have hsame (root root' : SyntaxTree) (hroot : root.Sheds root') :
      (linkModule (draftModule build root document depth) answer).Same
        (linkModule (draftModule build' root' document depth) answer') := by
    have hdraft : draftModule build root document depth =
        draftModule build root' document depth := by
      rw [draftModule, DraftContext.draftModule_sheds _ hroot, draftModule]
    have hplain : (linkModule (draftModule build root document depth) answer).plain =
        (linkModule (draftModule build' root' document depth) answer').plain := by
      rw [hdraft, linkModule, linkModule, requests_draftModule build build']
      refine plain_link_draftModule ?_ build build' root' document depth
      exact alike_answersFrom (fun r _ => h r.edge) (.refl {})
    refine ⟨hplain, ?_⟩
    rw [← diagnostics_plain, hplain, diagnostics_plain]
  exact ⟨hsame, fun p => ⟨p.layout_trimmed, hsame _ _ p.layout_sheds⟩⟩

def remarkDocument : Document :=
  ⟨⟨"file:///remark.pkl".toList, by decide⟩, some 1, "// a\n\"bc\"".toList⟩

def bareTree : SyntaxTree :=
  .rule "module" ⟨0, 9⟩ [.rule "importClause" ⟨5, 9⟩ [.leaf "stringConstant" ⟨5, 9⟩]]

/-- The same tree with a comment, and with a place for the keyword that is missing. -/
def remarkTree : SyntaxTree :=
  .rule "module" ⟨0, 9⟩ [.leaf "lineComment" ⟨0, 4⟩, .rule "importClause" ⟨5, 9⟩
    [.node { kind := "import", named := false, absent := true, span := ⟨5, 5⟩ } [],
      .leaf "stringConstant" ⟨5, 9⟩]]

theorem sheds_builds_same_remark : remarkTree.Sheds bareTree ∧
    (linkModule (draftModule 0 remarkTree remarkDocument 0) fun _ => .notFound).Same
      (linkModule (draftModule 1 bareTree remarkDocument 0) fun _ => .notFound) ∧
    (linkModule (draftModule 1 bareTree remarkDocument 0) fun _ => .notFound).diagnostics.map
      Diagnostic.message = ["Module not found: bc"] := by
  have hclause : SyntaxTree.ShedsAll remarkTree.children bareTree.children :=
    .drop rfl (.keep (.node _ (.drop rfl (.keep (.node _ .nil) .nil))) .nil)
  have hsheds : remarkTree.Sheds bareTree := .node _ hclause
  exact ⟨hsheds, (sheds_builds_same 0 1 0 remarkDocument fun _ => rfl).1 _ _ hsheds,
    by decide +kernel⟩

end ModuleLens
