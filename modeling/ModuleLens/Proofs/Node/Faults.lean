import ModuleLens.Proofs.Node.Refused

/-! What is wrong with a construct.  The slots in which a draft has children, and with them its
faults, are told by the kinds of the rules and the tokens in its tree. -/

namespace ModuleLens

namespace SyntaxTree

def isMark (token : String) (t : SyntaxTree) : Bool :=
  t.isVisible && (!t.head.wrong && !t.head.named) && t.kind == token

/-- Whether a token of a kind stands in a tree. -/
def hasMark (t : SyntaxTree) (token : String) : Bool := t.children.any (isMark token)

theorem isMark_of_isRule {t : SyntaxTree} (h : t.isRule) (token : String) :
    t.isMark token = false := by
  simp only [isRule, Bool.and_eq_true] at h
  simp [isMark, h.2.2]

end SyntaxTree

theorem Seat.isEmpty_taken (s : Seat) (ts : List SyntaxTree) :
    (s.taken ts).isEmpty = !ts.any fun t => s.accepts t.kind := by
  rw [taken]
  split
  all_goals
    induction ts with
    | nil => rfl
    | cons t ts ih => by_cases h : s.accepts t.kind <;> simp [h, ih]

namespace DraftContext

open Node SyntaxTree

variable (ctx : DraftContext) {t : SyntaxTree}

theorem any_place (slot role : Role) (ps : List Part) :
    ((place slot ps).any fun c => c.role == role) = (!ps.isEmpty && decide (slot = role)) := by
  have hrole (n : Node) : (n.withRole slot).role = slot := by
    cases n
    rfl
  rw [place, List.any_map, Bool.eq_iff_iff]
  cases ps with
  | nil => simp
  | cons p ps => simp [hrole]

theorem any_pick (slot role : Role) (kinds : List String) (ts : List SyntaxTree) :
    ((pick slot kinds (ts.map ctx.draftPart)).any fun c => c.role == role) =
      (ts.any (fun t => kinds.contains t.kind) && decide (slot = role)) := by
  rw [pick_map, any_place, List.isEmpty_map, Seat.isEmpty_taken, Bool.not_not]
  rfl

theorem hasToken_ofList (t : SyntaxTree) (token : String) :
    (Parts.ofList (t.children.map ctx.draftPart)).hasToken token = t.hasMark token := by
  rw [Parts.hasToken, Parts.tokens, visible_ofList, List.contains_eq_any_beq, List.any_map,
    List.any_filter, List.any_map, List.any_filter, hasMark]
  congr 1
  funext c
  simp only [isMark, Function.comp, Part.isToken, Part.isWrong, Part.kind, tree_draftPart,
    Bool.and_assoc, BEq.comm]

theorem has_drafted (hw : t.head.wrong = false) (role : Role) :
    (ctx.drafted t).has role =
      (ctx.childrenOf (.ofList (t.children.map ctx.draftPart)) (.ofKind t.kind)).any
        fun c => c.role == role := by
  rw [ctx.drafted_of_right hw, construct]
  exact (sortBy_perm inOrder _).any_eq

theorem label_drafted (hw : t.head.wrong = false) : (ctx.drafted t).label =
    ctx.labelOf t (.ofList (t.children.map ctx.draftPart)) (.ofKind t.kind) := by
  rw [ctx.drafted_of_right hw]
  rfl

theorem faults_typeReference (hw : t.head.wrong = false)
    (hk : Form.ofKind t.kind = .typeReference) : (ctx.drafted t).faults =
      problemIf (!t.rules.any fun c => nameKinds.contains c.kind) .missingTypeName := by
  have hhas := ctx.has_drafted hw .name
  have hlabel := ctx.label_drafted hw
  rw [hk] at hhas hlabel
  simp only [childrenOf, named_ofList, recovered_ofList, leave_map, List.any_append, any_pick,
    any_place, reduceCtorEq, decide_true, decide_false, Bool.and_true, Bool.and_false,
    Bool.or_false] at hhas
  simp only [faults, problems, hlabel, labelOf, hhas]

theorem faults_typeClause (hw : t.head.wrong = false) (hk : Form.ofKind t.kind = .typeClause) :
    (ctx.drafted t).faults = problemIf (!t.hasMark ":") .missingColon ++
      problemIf (!t.rules.any fun c => ["type"].contains c.kind) .missingTypeName := by
  have hhas := ctx.has_drafted hw .type
  have hlabel := ctx.label_drafted hw
  rw [hk] at hhas hlabel
  simp only [childrenOf, named_ofList, recovered_ofList, List.any_append, any_pick, any_place,
    reduceCtorEq, decide_true, decide_false, Bool.and_true, Bool.and_false, Bool.or_false] at hhas
  simp only [faults, problems, hlabel, labelOf, hasToken_ofList, hhas]

theorem faults_binary (hw : t.head.wrong = false) (hk : Form.ofKind t.kind = .binaryExpression)
    {left right : SyntaxTree} {rest : List SyntaxTree} (hrules : t.rules = left :: right :: rest) :
    (ctx.drafted t).faults = problemIf (!t.children.any isOperator) .missingOperator := by
  let ps := Parts.ofList (t.children.map ctx.draftPart)
  let isSign (p : Part) : Bool := p.isToken && operatorWords.contains p.kind
  let signs := ((ps.visible.find? isSign).map fun p =>
    (ctx.make p.tree.span (.binaryOperator p.kind) []).withRole .operator).toList
  have hhas (role : Role) : (ctx.drafted t).has role = (place .left (ps.named.take 1) ++ signs ++
      place .right ((ps.named.drop 1).take 1) ++
      place .recovered (operands.leftOver 2 ps.visible)).any fun c => c.role == role := by
    rw [ctx.has_drafted hw, hk]
    rfl
  have hsigns (role : Role) : (signs.any fun c => c.role == role) =
      (t.children.any isOperator && decide (.operator = role)) := by
    have hfind : ps.visible.find? isSign = (t.children.find? isOperator).map ctx.draftPart :=
      ctx.operator_ofList t
    have hany : t.children.any isOperator = (t.children.find? isOperator).isSome :=
      List.isSome_find?.symm
    simp only [signs, hfind, hany]
    cases t.children.find? isOperator with
    | none => rfl
    | some c => exact Bool.or_false _
  have hnamed : ps.named = (left :: right :: rest).map ctx.draftPart :=
    hrules ▸ ctx.named_ofList t
  have hlabel := ctx.label_drafted hw
  rw [hk] at hlabel
  simp only [List.any_append, any_place, hsigns, hnamed] at hhas
  simp [faults, problems, hlabel, labelOf, hhas, problemIf]

theorem faults_property (hw : t.head.wrong = false) (hk : Form.ofKind t.kind = .classProperty)
    (hbody : ∀ c ∈ t.rules, c.kind ≠ "objectBody") : (ctx.drafted t).faults =
      if !(t.rules.any fun c => ["typeAnnotation"].contains c.kind) &&
          !(t.rules.any fun c => isExpressionKind c.kind) && !t.hasMark "=" then
        [.missingTypeOrValue]
      else
        problemIf (t.hasMark "=" && !t.rules.any fun c => isExpressionKind c.kind) .missingValue ++
          problemIf ((t.rules.any fun c => isExpressionKind c.kind) && !t.hasMark "=")
            .missingEquals := by
  have hhas (role : Role) := ctx.has_drafted hw role
  have hlabel := ctx.label_drafted hw
  have hbodies : (Seat.every "objectBody").taken t.rules = [] := by
    refine List.filter_eq_nil_iff.2 fun c hc => ?_
    simpa [Seat.every] using hbody c hc
  have hothers : (Seat.every "objectBody").left t.rules = t.rules := by
    refine List.filter_eq_self.2 fun c hc => ?_
    simpa [Seat.every] using hbody c hc
  rw [hk] at hlabel
  simp only [hk, childrenOf, propertyChildren, named_ofList, recovered_ofList, others_map,
    pickAll_map, take_expressions, hbodies, hothers, List.any_append, any_pick, any_place,
    List.isEmpty_map, Seat.isEmpty_taken] at hhas
  simp only [faults, problems, hlabel, labelOf, propertyProblems, hhas, hasToken_ofList]
  simp [Seat.expression]

end DraftContext

end ModuleLens
