import ModuleLens.Proofs.Node.Making

/-! Modules apart from identities and outcomes.  A draft has neither, numbering adds the one and
linking the other.  A module that is made node by node is the draft of its tree with identities and
outcomes as well: it has the same nodes, in the same places and the same order. -/

namespace ModuleLens

namespace Node

mutual

/-- A node without the identities and outcomes in it. -/
def blank : Node → Node
  | mk info label _ children => mk { info with id := default } label none (blankAll children)

def blankAll : List Node → List Node
  | [] => []
  | c :: cs => blank c :: blankAll cs

end

theorem blankAll_eq (cs : List Node) : blankAll cs = cs.map blank := by
  induction cs with
  | nil => rfl
  | cons c cs ih => rw [blankAll, ih, List.map_cons]

theorem blank_withRole (role : Role) (n : Node) :
    (n.withRole role).blank = n.blank.withRole role := by
  cases n
  rfl

theorem role_withRole (role : Role) (n : Node) : (n.withRole role).role = role := by
  cases n
  rfl

theorem role_blank (n : Node) : n.blank.role = n.role := by
  cases n
  rfl

theorem range_blank (n : Node) : n.blank.range = n.range := by
  cases n
  rfl

mutual

theorem blank_number (build : Nat) :
    ∀ (next : Nat) (n : Node), (number build next n).1.blank = n.blank
  | next, mk info label outcome children => by
    simp only [number, blank]
    rw [blank_numberAll build (next + 1) children]

theorem blank_numberAll (build : Nat) :
    ∀ (next : Nat) (cs : List Node), blankAll (numberAll build next cs).1 = blankAll cs
  | _, [] => rfl
  | next, c :: cs => by
    simp only [numberAll, blankAll]
    rw [blank_number build next c, blank_numberAll build _ cs]

end

theorem blank_link (answers : Answers) (n : Node) : (n.link answers).blank = n.blank := by
  induction n using childInduction with
  | h n ih =>
    obtain ⟨info, label, outcome, children⟩ := n
    simp only [link, blank, linkAll_eq, blankAll_eq, List.map_map]
    exact congrArg _ (List.map_congr_left ih)

theorem listed_blank (ns : List Node) : listed (ns.map blank) = (listed ns).map blank := by
  have hrole (role : Role) :
      (fun n : Node => n.role == role) ∘ blank = fun n => n.role == role := by
    funext n
    rw [Function.comp, role_blank]
  simp only [listed, List.map_flatMap, List.filter_map, hrole]

end Node

namespace DraftContext

open Node SyntaxTree

variable (ctx : DraftContext)

theorem inOrder_blank (a b : Node) : inOrder a.blank b.blank = inOrder a b := by
  simp only [inOrder, range_blank]

theorem hereditary_blank : ctx.Hereditary fun n => n.blank = n := by
  refine ⟨fun n role h => by rw [blank_withRole, h], fun span label cs h => ?_⟩
  have hsorted : (sortBy inOrder cs).map blank = sortBy inOrder cs := by
    refine (List.map_congr_left fun c hc => ?_).trans (List.map_id _)
    exact h c ((sortBy_perm inOrder cs).mem_iff.1 hc)
  simp only [make, blank, blankAll_eq, hsorted]

end DraftContext

theorem blank_linked (build depth : Nat) (root : SyntaxTree) (document : Document)
    (answers : Node.Answers) :
    ((draftModule build root document depth).link answers).blank =
      (DraftContext.mk document depth (.of document.text)).draftModule root := by
  rw [Node.blank_link, draftModule, Node.blank_number]
  exact (DraftContext.hereditary_blank _).draftModule root

end ModuleLens
