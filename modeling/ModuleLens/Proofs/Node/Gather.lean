import ModuleLens.Proofs.Node.Linking
import ModuleLens.Proofs.Node.Seats

/-! Gathering from the nodes of a tree.  What is gathered by labels and ranges does not depend on
numbers, roles and outcomes; from a draft it is gathered, up to order, along the seats of the
concrete tree. -/

namespace ModuleLens

namespace Node

variable {β : Type} (own : Label → Extent → List β)

/-- What the nodes of a tree have, parents first. -/
def gather (n : Node) : List β := n.nodes.flatMap fun d => own d.label d.range

theorem gather_eq (n : Node) :
    n.gather own = own n.label n.range ++ n.children.flatMap (gather own) := by
  have hbelow : (n.descendants.flatMap fun d => own d.label d.range) =
      n.children.flatMap (gather own) := by
    rw [descendants_eq, List.flatMap_assoc]
    rfl
  rw [gather, nodes, List.flatMap_cons, hbelow]

theorem gather_withRole (role : Role) (n : Node) : (n.withRole role).gather own = n.gather own := by
  rw [gather_eq, gather_eq]
  cases n
  rfl

theorem gather_bare (ns : List Node) :
    (ns.map bare).flatMap (gather own) = ns.flatMap (gather own) := by
  rw [List.flatMap_map]
  simp only [bare, gather_withRole]

theorem gather_link (answers : Answers) (n : Node) :
    (n.link answers).gather own = n.gather own := by
  induction n using childInduction with
  | h n ih =>
    rw [gather_eq, gather_eq, children_link, List.flatMap_map, List.flatMap_congr ih]
    cases n
    rfl

mutual

theorem gather_number (build : Nat) :
    ∀ (next : Nat) (n : Node), (number build next n).1.gather own = n.gather own
  | next, mk info label outcome children => by
    rw [gather_eq, gather_eq own (mk info label outcome children)]
    have hcs := gather_numberAll build (next + 1) children
    simp only [number]
    rw [Node.children, hcs]
    rfl

theorem gather_numberAll (build : Nat) :
    ∀ (next : Nat) (cs : List Node),
      (numberAll build next cs).1.flatMap (gather own) = cs.flatMap (gather own)
  | _, [] => rfl
  | next, c :: cs => by
    simp only [numberAll, List.flatMap_cons]
    rw [gather_number build next c, gather_numberAll build _ cs]

end

end Node

namespace DraftContext

open Node SyntaxTree

variable (ctx : DraftContext) {β : Type} {own : Label → Extent → List β}

/-- What a node of a draft has itself. -/
def ownAt (own : Label → Extent → List β) (t : SyntaxTree) : List β :=
  own (ctx.drafted t).label (ctx.drafted t).range

theorem gather_make (span : Span) (label : Label) (cs : List Node) :
    ((ctx.make span label cs).gather own).Perm
      (own label (ctx.scale.extent span) ++ cs.flatMap (gather own)) := by
  rw [gather_eq]
  exact ((sortBy_perm inOrder cs).flatMap_right (gather own)).append_left _

variable (hsign : ∀ operator range, own (.binaryOperator operator) range = [])

include hsign

theorem gather_childrenOf (form : Form) (t : SyntaxTree) :
    ((ctx.childrenOf (.ofList (t.children.map ctx.draftPart)) form).flatMap (gather own)).Perm
      ((form.built t).flatMap fun c => (ctx.drafted c).gather own) := by
  have hsigns : ((form.signs t).flatMap fun c => (ctx.sign c).gather own) = [] := by
    refine List.flatMap_eq_nil_iff.2 fun c _ => ?_
    rw [gather_eq, sign]
    exact List.append_eq_nil_iff.2 ⟨hsign _ _, rfl⟩
  rw [← gather_bare]
  refine ((ctx.childrenOf_perm form t).flatMap_right (gather own)).trans (.of_eq ?_)
  rw [List.flatMap_append, List.flatMap_map, List.flatMap_map, hsigns, List.append_nil]

/-- What follows a chain of seats is what is gathered from the draft. -/
theorem gather_drafted {f : SyntaxTree → List β}
    (hf : ∀ t, f t = ctx.ownAt own t ++
      if t.head.wrong then [] else ((Form.ofKind t.kind).built t).flatMap f) (t : SyntaxTree) :
    ((ctx.drafted t).gather own).Perm (f t) := by
  rw [hf, ownAt]
  cases hw : t.head.wrong with
  | true =>
    rw [ctx.drafted_of_wrong hw]
    exact ctx.gather_make _ _ _
  | false =>
    -- The recursion is on the size of the tree: what an argument list hands on is two levels below.
    have hbelow := List.Perm.flatMap_left ((Form.ofKind t.kind).built t) fun c hc =>
      gather_drafted hf c
    rw [ctx.drafted_of_right hw, construct]
    refine (ctx.gather_make _ _ _).trans (List.Perm.append_left _ ?_)
    exact (ctx.gather_childrenOf hsign _ t).trans hbelow
termination_by sizeOf t
decreasing_by exact Form.sizeOf_lt_of_mem_built hc

theorem gather_draftModule {f : SyntaxTree → List β}
    (hf : ∀ t, f t = ctx.ownAt own t ++
      if t.head.wrong then [] else ((Form.ofKind t.kind).built t).flatMap f) (root : SyntaxTree) :
    ((ctx.draftModule root).gather own).Perm (own .module (ctx.scale.extent root.span) ++
      ((root.rules ++ root.strays).flatMap f ++
        if root.head.wrong && root.kind != "module" then (ctx.draftWrong root.span).gather own
        else [])) := by
  obtain ⟨cs, hmodule, hcs⟩ := ctx.exists_draftModule root
  rw [hmodule]
  refine (ctx.gather_make _ _ _).trans (List.Perm.append_left _ ?_)
  rw [← gather_bare]
  refine (hcs.flatMap_right (gather own)).trans ?_
  rw [List.flatMap_append, List.flatMap_map]
  refine List.Perm.append (.flatMap_left _ fun c _ => ctx.gather_drafted hsign hf c) (.of_eq ?_)
  split <;> simp

end DraftContext

end ModuleLens
