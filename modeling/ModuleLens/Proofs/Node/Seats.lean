import ModuleLens.Proofs.Lists
import ModuleLens.Proofs.Node.Drafts

/-! Seats for the parts of a construct.  A construct has seats for some of its rules, and a leaf has
none; a seated rule becomes a child, except that an argument list stands for the rules in it and an
extends clause for its type.  The children of a draft are, up to their order and their roles, the
drafts of the seated rules and of the wrong parts, and the operator of a binary expression. -/

namespace ModuleLens

namespace SyntaxTree

def isVisible (t : SyntaxTree) : Bool := !t.head.absent && !isCommentKind t.kind

def isRule (t : SyntaxTree) : Bool := t.isVisible && (!t.head.wrong && t.head.named)

def isStray (t : SyntaxTree) : Bool := t.isVisible && t.head.wrong

def rules (t : SyntaxTree) : List SyntaxTree := t.children.filter isRule

def strays (t : SyntaxTree) : List SyntaxTree := t.children.filter isStray

/-- Whether a rule can stand for what is in it. -/
def isWrapper (t : SyntaxTree) : Bool := t.kind == "argumentList" || t.kind == "classExtendsClause"

/-- Whether a part is a token that can be the operator of a binary expression. -/
def isOperator (t : SyntaxTree) : Bool :=
  t.isVisible && ((!t.head.wrong && !t.head.named) && operatorWords.contains t.kind)

end SyntaxTree

/-- A seat for the first rule of a kind, or for all of them. -/
structure Seat where
  accepts : String → Bool
  many : Bool := false

namespace Seat

open SyntaxTree

def first (kinds : List String) : Seat := ⟨kinds.contains, false⟩

def every (kind : String) : Seat := ⟨(· == kind), true⟩

def expression : Seat := ⟨isExpressionKind, false⟩

def rest : Seat := ⟨fun _ => true, true⟩

def taken (s : Seat) (ts : List SyntaxTree) : List SyntaxTree :=
  if s.many then ts.filter fun t => s.accepts t.kind
  else (ts.find? fun t => s.accepts t.kind).toList

def left (s : Seat) (ts : List SyntaxTree) : List SyntaxTree :=
  if s.many then ts.filter fun t => !s.accepts t.kind
  else ts.eraseP fun t => s.accepts t.kind

/-- The rules that find a seat when the seats are offered one after the other. -/
def seated : List Seat → List SyntaxTree → List SyntaxTree
  | [], _ => []
  | s :: ss, ts => s.taken ts ++ seated ss (s.left ts)

end Seat

namespace Form

open SyntaxTree

def isLeaf : Form → Bool
  | identifier | stringLiteral | numberLiteral | booleanLiteral _ | nullLiteral => true
  | _ => false

def seats : Form → List Seat
  | moduleClause => [.first DraftContext.nameKinds]
  | importClause => [.first ["stringConstant", "slStringLiteral", "mlStringLiteral"]]
  | classDeclaration => [.first ["identifier"], .first ["classExtendsClause"], .first ["classBody"]]
  | classProperty | objectProperty =>
    [.every "objectBody", .expression, .first ["identifier"], .first ["typeAnnotation"]]
  | objectEntry => [.every "objectBody", .expression, .expression]
  | functionDeclaration => [.first ["methodHeader"], .expression]
  | functionHeader => [.first ["identifier"], .first ["parameterList"], .first ["typeAnnotation"]]
  | parameter => [.first ["identifier"], .first ["typeAnnotation"]]
  | typeClause => [.first ["type"]]
  | variableReference => [.first ["identifier"]]
  | identifier | stringLiteral | numberLiteral | booleanLiteral _ | nullLiteral => []
  | _ => [.rest]

/-- What of a seated rule becomes a child: an argument list stands for the rules in it, and an
extends clause for its type. -/
def admits (form : Form) (t : SyntaxTree) : List SyntaxTree :=
  if form = methodCall && t.kind == "argumentList" then t.rules
  else if form = classDeclaration && t.kind == "classExtendsClause" then
    (Seat.first ["type"]).taken t.rules
  else [t]

/-- The trees below a tree that its construct has children for. -/
def built (form : Form) (t : SyntaxTree) : List SyntaxTree :=
  (Seat.seated form.seats t.rules).flatMap form.admits ++ if form.isLeaf then [] else t.strays

/-- The first operator below a tree, if its construct has a child for it. -/
def signs (form : Form) (t : SyntaxTree) : List SyntaxTree :=
  if form = binaryExpression then (t.children.find? isOperator).toList else []

end Form

namespace SyntaxTree

theorem sizeOf_lt_of_mem_children {c t : SyntaxTree} (h : c ∈ t.children) :
    sizeOf c < sizeOf t := by
  obtain ⟨head, children⟩ := t
  have hlt := List.sizeOf_lt_of_mem (show c ∈ children from h)
  simp only [node.sizeOf_spec]
  omega

theorem mem_children_of_mem_rules {c t : SyntaxTree} (h : c ∈ t.rules) : c ∈ t.children :=
  (List.mem_filter.1 h).1

theorem isStray_of_isRule {t : SyntaxTree} (h : t.isRule) :
    t.isStray = false ∧ t.isOperator = false := by
  simp only [isRule, Bool.and_eq_true, Bool.not_eq_true'] at h
  obtain ⟨_, hw, hn⟩ := h
  exact ⟨by simp [isStray, hw], by simp [isOperator, hn]⟩

theorem isRule_of_isStray {t : SyntaxTree} (h : t.isStray) :
    t.isRule = false ∧ t.isOperator = false := by
  simp only [isStray, Bool.and_eq_true] at h
  exact ⟨by simp [isRule, h.2], by simp [isOperator, h.2]⟩

theorem rules_strays_operators (t : SyntaxTree) :
    (t.rules ++ (t.strays ++ t.children.filter isOperator)).Subperm t.children := by
  let others (c : SyntaxTree) : Bool := c.isStray || c.isOperator
  have hrule (c : SyntaxTree) (hc : others c) : c.isRule = false := by
    refine Bool.eq_false_iff.2 fun hr => ?_
    simp [others, isStray_of_isRule hr] at hc
  have hstray (c : SyntaxTree) (hc : c.isOperator) : c.isStray = false := by
    simp only [isOperator, Bool.and_eq_true, Bool.not_eq_true'] at hc
    simp [isStray, hc.2.1.1]
  have hothers := filter_append_subperm hstray (t.children.filter others)
  have hs (c : SyntaxTree) : (c.isStray && others c) = c.isStray :=
    Bool.and_eq_left_iff_imp.2 fun h => Bool.or_eq_true_iff.2 (.inl h)
  have ho (c : SyntaxTree) : (c.isOperator && others c) = c.isOperator :=
    Bool.and_eq_left_iff_imp.2 fun h => Bool.or_eq_true_iff.2 (.inr h)
  simp only [List.filter_filter, hs, ho] at hothers
  exact ((List.Subperm.refl t.rules).append hothers).trans
    (filter_append_subperm hrule t.children)

theorem rules_append_strays (t : SyntaxTree) : (t.rules ++ t.strays).Subperm t.children :=
  ((List.sublist_append_left t.strays _).append_left t.rules).subperm.trans
    t.rules_strays_operators

/-- Parts each of which is a rule or wrong are all there is. -/
theorem rules_append_strays_perm {t : SyntaxTree} (h : ∀ c ∈ t.children, c.isRule ∨ c.isStray) :
    (t.rules ++ t.strays).Perm t.children := by
  have hstrays : t.strays = t.children.filter fun c => !c.isRule := by
    refine List.filter_congr fun c hc => ?_
    cases hr : c.isRule with
    | true => exact (isStray_of_isRule hr).1
    | false => exact (h c hc).resolve_left (Bool.eq_false_iff.1 hr)
  rw [hstrays]
  exact List.filter_append_perm isRule t.children

end SyntaxTree

namespace Seat

theorem taken_append_left (s : Seat) (ts : List SyntaxTree) :
    (s.taken ts ++ s.left ts).Perm ts := by
  rw [taken, left]
  split
  · exact List.filter_append_perm _ ts
  · induction ts with
    | nil => exact .refl _
    | cons t ts ih =>
      by_cases h : s.accepts t.kind
      · simp [h]
      · simp only [List.find?_cons, List.eraseP_cons, h]
        exact List.perm_middle.trans (ih.cons t)

theorem seated_subperm (ss : List Seat) (ts : List SyntaxTree) : (seated ss ts).Subperm ts := by
  induction ss generalizing ts with
  | nil => exact List.nil_subperm
  | cons s ss ih =>
    have hh := (List.Subperm.refl (s.taken ts)).append (ih (s.left ts))
    exact hh.trans (s.taken_append_left ts).subperm

theorem kind_of_mem_taken {kinds : List String} {ts : List SyntaxTree} {t : SyntaxTree}
    (h : t ∈ (first kinds).taken ts) : t.kind ∈ kinds := by
  have hfind : ts.find? (fun t => kinds.contains t.kind) = some t := Option.mem_toList.1 h
  have hkind := List.find?_some (p := fun t : SyntaxTree => kinds.contains t.kind) hfind
  exact List.contains_iff_mem.1 hkind

theorem taken_rest (ts : List SyntaxTree) : rest.taken ts = ts :=
  List.filter_eq_self.2 fun _ _ => rfl

theorem find?_left {s : Seat} {p : SyntaxTree → Bool} (h : ∀ t, p t → s.accepts t.kind = false)
    (ts : List SyntaxTree) : (s.left ts).find? p = ts.find? p := by
  rw [left]
  split
  · rw [List.find?_filter]
    congr 1
    funext t
    cases hp : p t with
    | true => simp [h t hp]
    | false => simp
  · induction ts with
    | nil => rfl
    | cons t ts ih =>
      by_cases hs : s.accepts t.kind
      · have hp : p t = false := Bool.eq_false_iff.2 fun hp => by simp [h t hp] at hs
        simp [hs, hp]
      · simp [hs, List.find?_cons, ih]

theorem taken_left {s : Seat} {kinds : List String} (h : ∀ k ∈ kinds, s.accepts k = false)
    (ts : List SyntaxTree) : (first kinds).taken (s.left ts) = (first kinds).taken ts :=
  congrArg Option.toList (find?_left (fun t ht => h t.kind (List.contains_iff_mem.1 ht)) ts)

theorem taken_every_left {s : Seat} {kind : String} (h : s.accepts kind = false)
    (ts : List SyntaxTree) :
    (every kind).taken (s.left ts) = (every kind).taken ts := by
  have hp (t : SyntaxTree) (ht : t.kind == kind) : s.accepts t.kind = false := eq_of_beq ht ▸ h
  change (s.left ts).filter (fun t => t.kind == kind) = ts.filter fun t => t.kind == kind
  rw [left]
  split
  · rw [List.filter_filter]
    refine List.filter_congr fun t _ => Bool.and_eq_left_iff_imp.2 fun ht => ?_
    rw [hp t ht, Bool.not_false]
  · induction ts with
    | nil => rfl
    | cons t ts ih =>
      by_cases hs : s.accepts t.kind
      · have hk : (t.kind == kind) = false := Bool.eq_false_iff.2 fun ht => by simp [hp t ht] at hs
        simp [hs, hk]
      · simp [hs, List.filter_cons, ih]

theorem taken_expression_left {kinds : List String} (h : ∀ k ∈ kinds, isExpressionKind k = false)
    (kind : String) (ts : List SyntaxTree) :
    expression.taken ((every kind).left ((first kinds).left ts)) =
      expression.taken ((every kind).left ts) := by
  have hleft (l : List SyntaxTree) : expression.taken ((every kind).left l) =
      (l.find? fun t => !(t.kind == kind) && isExpressionKind t.kind).toList := by
    change ((l.filter fun t => !(t.kind == kind)).find? fun t => isExpressionKind t.kind).toList = _
    rw [List.find?_filter]
    simp only [Bool.decide_and, Bool.decide_eq_true]
  rw [hleft, hleft, find?_left]
  intro t ht
  refine Bool.eq_false_iff.2 fun hk => ?_
  rw [h t.kind (List.contains_iff_mem.1 hk), Bool.and_false] at ht
  cases ht

end Seat

namespace Form

open SyntaxTree

theorem admits_cases (form : Form) (t : SyntaxTree) :
    form.admits t = [t] ∨ t.isWrapper ∧ (form.admits t).Subperm t.children := by
  have hrules : t.rules.Subperm t.children := List.filter_sublist.subperm
  rw [admits]
  split
  · next h => exact .inr ⟨by simp [isWrapper, (Bool.and_eq_true_iff.1 h).2], hrules⟩
  · split
    · next h =>
      have htype := (Seat.first ["type"]).taken_append_left t.rules
      refine .inr ⟨by simp [isWrapper, (Bool.and_eq_true_iff.1 h).2], ?_⟩
      exact ((List.sublist_append_left _ _).subperm.trans htype.subperm).trans hrules
    · exact .inl rfl

theorem subset_of_admits {form : Form} {t c : SyntaxTree} (h : c ∈ form.admits t) :
    c = t ∨ c ∈ t.children := by
  rcases form.admits_cases t with ha | ⟨_, ha⟩
  · rw [ha] at h
    exact .inl (List.mem_singleton.1 h)
  · exact .inr (ha.subset h)

/-- What is collected from the trees that a construct has children for is collected from all below
it, if a rule that can stand for what is in it has all that is collected from there. -/
theorem flatMap_built_subperm {α : Type} {f : SyntaxTree → List α} (form : Form)
    (h : ∀ r : SyntaxTree, r.isRule → r.isWrapper → (r.children.flatMap f).Subperm (f r))
    (t : SyntaxTree) :
    ((form.built t).flatMap f).Subperm (t.children.flatMap f) := by
  have hadmits {r : SyntaxTree} (hr : r.isRule) : ((form.admits r).flatMap f).Subperm (f r) := by
    rcases form.admits_cases r with ha | ⟨hw, ha⟩
    · rw [ha, List.flatMap_singleton]
    · exact (subperm_flatMap ha f).trans (h r hr hw)
  have hseated := Seat.seated_subperm form.seats t.rules
  have hrules : (((Seat.seated form.seats t.rules).flatMap form.admits).flatMap f).Subperm
      (t.rules.flatMap f) := by
    rw [List.flatMap_assoc]
    refine (flatMap_subperm fun c hc => hadmits ?_).trans (subperm_flatMap hseated f)
    exact (List.mem_filter.1 (hseated.subset hc)).2
  have hstrays : ((if form.isLeaf then [] else t.strays).flatMap f).Subperm
      (t.strays.flatMap f) := by
    split
    · exact List.nil_subperm
    · exact .refl _
  have hall := subperm_flatMap t.rules_append_strays f
  rw [List.flatMap_append] at hall
  rw [Form.built, List.flatMap_append]
  exact (hrules.append hstrays).trans hall

theorem isVisible_of_mem_built {form : Form} {t c : SyntaxTree} (h : c ∈ form.built t) :
    c.isVisible := by
  have hrule {r u : SyntaxTree} (hr : r ∈ u.rules) : r.isVisible :=
    (Bool.and_eq_true_iff.1 (List.mem_filter.1 hr).2).1
  rcases List.mem_append.1 h with h | h
  · obtain ⟨r, hr, hc⟩ := List.mem_flatMap.1 h
    rw [Form.admits] at hc
    split at hc
    · exact hrule hc
    · split at hc
      · have htype := (Seat.first ["type"]).taken_append_left r.rules
        exact hrule (htype.subset (List.mem_append_left _ hc))
      · rw [List.mem_singleton.1 hc]
        exact hrule ((Seat.seated_subperm _ _).subset hr)
  · split at h
    · cases h
    · exact (Bool.and_eq_true_iff.1 (List.mem_filter.1 h).2).1

theorem sizeOf_lt_of_mem_built {form : Form} {t c : SyntaxTree} (h : c ∈ form.built t) :
    sizeOf c < sizeOf t := by
  rcases List.mem_append.1 h with h | h
  · obtain ⟨r, hr, hc⟩ := List.mem_flatMap.1 h
    have hrule := mem_children_of_mem_rules ((Seat.seated_subperm _ _).subset hr)
    have hlt := sizeOf_lt_of_mem_children hrule
    rcases subset_of_admits hc with rfl | hc
    · exact hlt
    · have hlt' := sizeOf_lt_of_mem_children hc
      omega
  · split at h
    · cases h
    · exact sizeOf_lt_of_mem_children (List.mem_filter.1 h).1

end Form

namespace Node

/-- A node apart from its role. -/
def bare (n : Node) : Node := n.withRole .root

theorem bare_withRole (role : Role) (n : Node) : (n.withRole role).bare = n.bare := by
  cases n
  rfl

end Node

namespace DraftContext

open Node SyntaxTree

variable (ctx : DraftContext)

theorem draftAll_eq (ts : List SyntaxTree) : ctx.draftAll ts = ts.map ctx.draftPart := by
  induction ts with
  | nil => rfl
  | cons t ts ih => rw [draftAll, ih, List.map_cons]

theorem tree_draftPart (t : SyntaxTree) : (ctx.draftPart t).tree = t := by
  cases t
  rfl

theorem kind_draftPart (t : SyntaxTree) : (ctx.draftPart t).kind = t.kind := by
  rw [Part.kind, tree_draftPart]

theorem parts_draftPart (t : SyntaxTree) :
    (ctx.draftPart t).parts = t.children.map ctx.draftPart := by
  cases t
  exact ctx.draftAll_eq _

theorem visible_ofList (ts : List SyntaxTree) :
    (Parts.ofList (ts.map ctx.draftPart)).visible = (ts.filter isVisible).map ctx.draftPart := by
  have hh : Part.isVisible ∘ ctx.draftPart = isVisible := by
    funext t
    simp only [Function.comp, Part.isVisible, Part.kind, tree_draftPart, isVisible]
  rw [Parts.ofList, List.filter_map, hh]

theorem named_ofList (t : SyntaxTree) :
    (Parts.ofList (t.children.map ctx.draftPart)).named = t.rules.map ctx.draftPart := by
  rw [Parts.named, visible_ofList, List.filter_map, List.filter_filter, rules]
  congr 2
  funext c
  simp only [Function.comp, Part.isNamed, Part.isWrong, tree_draftPart, isRule, Bool.and_comm]

theorem recovered_ofList (t : SyntaxTree) :
    (Parts.ofList (t.children.map ctx.draftPart)).recovered =
      place .recovered (t.strays.map ctx.draftPart) := by
  rw [Parts.recovered, visible_ofList, List.filter_map, List.filter_filter, strays]
  congr 3
  funext c
  simp only [Function.comp, Part.isWrong, tree_draftPart, isStray, Bool.and_comm]

theorem operator_ofList (t : SyntaxTree) :
    (Parts.ofList (t.children.map ctx.draftPart)).visible.find?
        (fun p => p.isToken && operatorWords.contains p.kind) =
      (t.children.find? isOperator).map ctx.draftPart := by
  rw [visible_ofList, List.find?_map, List.find?_filter]
  congr 2
  funext c
  simp only [Function.comp, Part.isToken, Part.isWrong, Part.kind, tree_draftPart, isOperator,
    Bool.and_assoc, Bool.decide_and, Bool.decide_eq_true]

/-- The draft of a tree below the module. -/
def drafted (t : SyntaxTree) : Node := (ctx.draftPart t).node

/-- The draft of an operator. -/
def sign (t : SyntaxTree) : Node := ctx.make t.span (.binaryOperator t.kind) []

theorem drafted_of_wrong {t : SyntaxTree} (h : t.head.wrong) :
    ctx.drafted t = ctx.draftWrong t.span := by
  obtain ⟨head, children⟩ := t
  have hw : head.wrong = true := h
  simp only [drafted, draftPart, hw, if_true]
  rfl

theorem drafted_of_right {t : SyntaxTree} (h : t.head.wrong = false) :
    ctx.drafted t =
      ctx.construct (.ofKind t.kind) t (.ofList (t.children.map ctx.draftPart)) := by
  obtain ⟨head, children⟩ := t
  have hw : head.wrong = false := h
  simp only [drafted, draftPart, hw, Bool.false_eq_true, if_false, draftAll_eq]
  rfl

theorem bare_drafted (t : SyntaxTree) : (ctx.drafted t).bare = ctx.drafted t := by
  cases hw : t.head.wrong with
  | true =>
    rw [ctx.drafted_of_wrong hw]
    rfl
  | false =>
    rw [ctx.drafted_of_right hw]
    rfl

theorem bare_place (role : Role) (ts : List SyntaxTree) :
    (place role (ts.map ctx.draftPart)).map bare = ts.map ctx.drafted := by
  rw [place, List.map_map, List.map_map]
  refine List.map_congr_left fun t _ => ?_
  exact (bare_withRole role _).trans (ctx.bare_drafted t)

theorem pick_map (role : Role) (kinds : List String) (ts : List SyntaxTree) :
    pick role kinds (ts.map ctx.draftPart) =
      place role (((Seat.first kinds).taken ts).map ctx.draftPart) := by
  rw [pick, List.find?_map]
  simp only [Function.comp_def, kind_draftPart]
  change _ = place role ((ts.find? fun t => kinds.contains t.kind).toList.map ctx.draftPart)
  cases ts.find? fun t => kinds.contains t.kind <;> rfl

theorem leave_map (kinds : List String) (ts : List SyntaxTree) :
    leave kinds (ts.map ctx.draftPart) = ((Seat.first kinds).left ts).map ctx.draftPart := by
  rw [leave, List.eraseP_map]
  simp only [Function.comp_def, kind_draftPart]
  rfl

theorem pickAll_map (role : Role) (kind : String) (ts : List SyntaxTree) :
    pickAll role kind (ts.map ctx.draftPart) =
      place role (((Seat.every kind).taken ts).map ctx.draftPart) := by
  rw [pickAll, List.filter_map]
  simp only [Function.comp_def, kind_draftPart]
  rfl

theorem others_map (kind : String) (ts : List SyntaxTree) :
    (ts.map ctx.draftPart).filter (fun p => p.kind != kind) =
      ((Seat.every kind).left ts).map ctx.draftPart := by
  rw [List.filter_map]
  simp only [Function.comp_def, kind_draftPart]
  rfl

theorem expressions_map (ts : List SyntaxTree) :
    expressions (ts.map ctx.draftPart) =
      (ts.filter fun t => isExpressionKind t.kind).map ctx.draftPart := by
  rw [expressions, List.filter_map]
  simp only [Function.comp_def, kind_draftPart]

theorem take_expressions (ts : List SyntaxTree) :
    (expressions (ts.map ctx.draftPart)).take 1 =
      (Seat.expression.taken ts).map ctx.draftPart := by
  rw [expressions_map, ← List.map_take]
  congr 1
  induction ts with
  | nil => rfl
  | cons t ts ih =>
    by_cases h : isExpressionKind t.kind
    · simp [Seat.taken, Seat.expression, h]
    · simpa [Seat.taken, Seat.expression, h] using ih

theorem drop_expressions (ts : List SyntaxTree) :
    (expressions (ts.map ctx.draftPart)).drop 1 =
      expressions ((Seat.expression.left ts).map ctx.draftPart) := by
  rw [expressions_map, expressions_map, ← List.map_drop]
  congr 1
  induction ts with
  | nil => rfl
  | cons t ts ih =>
    by_cases h : isExpressionKind t.kind
    · simp [Seat.left, Seat.expression, h]
    · simpa [Seat.left, Seat.expression, h] using ih

theorem argumentsOf_map (ts : List SyntaxTree) :
    (ts.map ctx.draftPart).flatMap argumentsOf =
      place .argument ((ts.flatMap Form.methodCall.admits).map ctx.draftPart) := by
  have hone (t : SyntaxTree) : argumentsOf (ctx.draftPart t) =
      place .argument ((Form.methodCall.admits t).map ctx.draftPart) := by
    rw [argumentsOf, kind_draftPart, parts_draftPart, named_ofList]
    by_cases h : t.kind == "argumentList"
    · rw [if_pos h, Form.admits, if_pos (by simp [h])]
    · simp [h, Form.admits, place]
  rw [List.flatMap_map, place, List.map_map, List.map_flatMap]
  simp only [hone, place, List.map_map]

theorem superclass_map (ts : List SyntaxTree) :
    superclass (ts.map ctx.draftPart) = place .superclass
      ((((Seat.first ["classExtendsClause"]).taken ts).flatMap Form.classDeclaration.admits).map
        ctx.draftPart) := by
  have hkind (k : String) : ["classExtendsClause"].contains k = (k == "classExtendsClause") :=
    Bool.eq_iff_iff.2 (by simp)
  rw [superclass, List.find?_map]
  simp only [Function.comp_def, kind_draftPart, Seat.taken, Seat.first, hkind]
  cases hf : ts.find? fun t => t.kind == "classExtendsClause" with
  | none => rfl
  | some t =>
    have hk := List.find?_some (p := fun t : SyntaxTree => t.kind == "classExtendsClause") hf
    simp only [Option.map_some, parts_draftPart, named_ofList, pick_map]
    simp [Form.admits, hk]

theorem leftOver_perm (n : Nat) (ps : List Part) :
    (operands.leftOver n ps).Perm
      ((ps.filter Part.isNamed).drop n ++ ps.filter Part.isWrong) := by
  fun_induction operands.leftOver n ps with
  | case1 => simp
  | case2 n p ps hw ih =>
    have hn : p.isNamed = false := by simp [Part.isNamed, hw]
    simp only [List.filter_cons, hw, hn, Bool.false_eq_true, if_false, if_true]
    exact (ih.cons p).trans List.perm_middle.symm
  | case3 p ps hw hn ih => simpa [List.filter_cons, hw, hn] using ih.cons p
  | case4 p ps hw hn n ih => simpa [List.filter_cons, hw, hn] using ih
  | case5 n p ps hw hn ih => simpa [List.filter_cons, hw, hn] using ih

theorem bare_operands (t : SyntaxTree) :
    ((ctx.operands (.ofList (t.children.map ctx.draftPart))).map bare).Perm
      ((t.rules ++ t.strays).map ctx.drafted ++ (Form.binaryExpression.signs t).map ctx.sign) := by
  have hplain (role : Role) (ts : List SyntaxTree) :
      ((ts.map ctx.draftPart).map fun p => p.node.withRole role).map bare = ts.map ctx.drafted :=
    ctx.bare_place role ts
  have hrest : (((operands.leftOver 2 (Parts.ofList (t.children.map ctx.draftPart)).visible).map
      fun p => p.node.withRole .recovered).map bare).Perm
        ((t.rules.drop 2 ++ t.strays).map ctx.drafted) := by
    refine (((leftOver_perm 2 _).map _).map bare).trans ?_
    rw [← Parts.named, named_ofList, List.map_append, List.map_append, ← List.map_drop, hplain]
    have hwrong := congrArg (List.map bare) (ctx.recovered_ofList t)
    rw [Parts.recovered, bare_place] at hwrong
    rw [hwrong, List.map_append]
  have hsign : ((((Parts.ofList (t.children.map ctx.draftPart)).visible.find? fun p =>
      p.isToken && operatorWords.contains p.kind).map fun p =>
        (ctx.make p.tree.span (.binaryOperator p.kind) []).withRole .operator).toList).map bare =
          (Form.binaryExpression.signs t).map ctx.sign := by
    rw [operator_ofList, Form.signs, if_pos rfl]
    cases t.children.find? isOperator with
    | none => rfl
    | some c =>
      simp only [Option.map_some, tree_draftPart, kind_draftPart]
      rfl
  have hrules : t.rules = t.rules.take 1 ++ ((t.rules.drop 1).take 1 ++ t.rules.drop 2) := by
    have hdrop : t.rules.drop 2 = (t.rules.drop 1).drop 1 := by rw [List.drop_drop]
    rw [hdrop, List.take_append_drop, List.take_append_drop]
  simp only [operands, List.map_append, named_ofList, ← List.map_take, ← List.map_drop, hplain,
    hsign]
  -- The operator stands between the two sides.
  conv => rhs; rw [hrules]
  simp only [List.map_append, List.append_assoc] at hrest ⊢
  refine List.Perm.append_left _ ?_
  refine List.perm_append_comm.trans ?_
  rw [List.append_assoc]
  exact ((hrest.append_right _).append_left _).trans (.of_eq (by simp only [List.append_assoc]))

theorem flatMap_admits {form : Form} (hm : form ≠ .methodCall) (hc : form ≠ .classDeclaration)
    (ts : List SyntaxTree) : ts.flatMap form.admits = ts := by
  have hh (t : SyntaxTree) : form.admits t = [t] := by simp [Form.admits, hm, hc]
  induction ts with
  | nil => rfl
  | cons t ts ih => rw [List.flatMap_cons, hh, ih, List.singleton_append]

theorem flatMap_admits_taken (form : Form) {kinds : List String}
    (h : ∀ k ∈ kinds, k ≠ "argumentList" ∧ k ≠ "classExtendsClause") (ts : List SyntaxTree) :
    ((Seat.first kinds).taken ts).flatMap form.admits = (Seat.first kinds).taken ts := by
  have hh : ∀ t ∈ (Seat.first kinds).taken ts, form.admits t = [t] := by
    intro t ht
    obtain ⟨ha, hc⟩ := h t.kind (Seat.kind_of_mem_taken ht)
    simp [Form.admits, ha, hc]
  rw [List.flatMap_def, List.map_congr_left hh, ← List.flatMap_def, List.flatMap_singleton']

theorem bare_call (t : SyntaxTree) :
    ((ctx.childrenOf (.ofList (t.children.map ctx.draftPart)) .methodCall).map bare).Perm
      ((Form.methodCall.built t).map ctx.drafted) := by
  have hargs (ts : List SyntaxTree) :
      ((ts.map ctx.draftPart).flatMap argumentsOf).map bare =
        (ts.flatMap Form.methodCall.admits).map ctx.drafted := by
    rw [argumentsOf_map, bare_place]
  have hsplit := ((Seat.first ["identifier"]).taken_append_left t.rules).flatMap_right
    Form.methodCall.admits
  rw [List.flatMap_append, flatMap_admits_taken _ (by decide)] at hsplit
  simp only [childrenOf, named_ofList, recovered_ofList, pick_map, leave_map, List.map_append,
    bare_place, hargs, Form.built, Form.seats, Form.isLeaf, Seat.seated, Seat.taken_rest,
    List.append_nil]
  rw [← List.map_append]
  exact (hsplit.map ctx.drafted).append_right _

theorem bare_class (t : SyntaxTree) :
    ((ctx.childrenOf (.ofList (t.children.map ctx.draftPart)) .classDeclaration).map bare).Perm
      ((Form.classDeclaration.built t).map ctx.drafted) := by
  simp (disch := decide) only [childrenOf, named_ofList, recovered_ofList, pick_map,
    superclass_map, List.flatMap_append, List.map_append, bare_place, Form.built, Form.seats,
    Form.isLeaf, Seat.seated, Seat.taken_left, flatMap_admits_taken, List.append_nil]
  simp

/-- A construct's children are the drafts of the trees it has children for, and its operator. -/
theorem childrenOf_perm (form : Form) (t : SyntaxTree) :
    ((ctx.childrenOf (.ofList (t.children.map ctx.draftPart)) form).map bare).Perm
      ((form.built t).map ctx.drafted ++ (form.signs t).map ctx.sign) := by
  have hall (s : Seat) :
      ((s.taken t.rules).map ctx.drafted ++ (s.left t.rules).map ctx.drafted).Perm
        (t.rules.map ctx.drafted) := by
    rw [← List.map_append]
    exact (s.taken_append_left t.rules).map ctx.drafted
  by_cases hb : form = .binaryExpression
  · subst hb
    rw [Form.built, flatMap_admits (by decide) (by decide)]
    simp only [Form.seats, Form.isLeaf, Seat.seated, Seat.taken_rest, List.append_nil]
    exact ctx.bare_operands t
  rw [Form.signs, if_neg hb, List.map_nil, List.append_nil]
  by_cases hm : form = .methodCall
  · subst hm
    exact ctx.bare_call t
  by_cases hc : form = .classDeclaration
  · subst hc
    exact ctx.bare_class t
  rw [Form.built, flatMap_admits hm hc]
  cases form
  case methodCall => exact absurd rfl hm
  case classDeclaration => exact absurd rfl hc
  case binaryExpression => exact absurd rfl hb
  all_goals
    simp (disch := decide) only [childrenOf, propertyChildren, entryChildren, named_ofList,
      recovered_ofList, pick_map, pickAll_map, leave_map, others_map, take_expressions,
      drop_expressions, bare_place, Form.seats, Form.isLeaf, Seat.seated, Seat.taken_rest,
      Seat.taken_left, List.map_append, List.map_nil, List.append_nil]
  case module | typeReference => exact (hall _).append_right _
  -- The bodies are seated first but stand last among the children.
  case classProperty | objectProperty | objectEntry =>
    classical
    rw [List.perm_iff_count]
    intro n
    simp only [List.count_append, Bool.false_eq_true, if_false]
    omega
  all_goals simp

/-- A module has the drafts of all rules and wrong parts of its root as children; a root that is
wrong itself is one as well unless it is called a module. -/
theorem exists_draftModule (root : SyntaxTree) :
    ∃ cs, ctx.draftModule root = ctx.make root.span .module cs ∧
      (cs.map bare).Perm ((root.rules ++ root.strays).map ctx.drafted ++
        if root.head.wrong && root.kind != "module" then [ctx.draftWrong root.span] else []) := by
  rw [draftModule, draftAll_eq]
  by_cases hk : root.kind == "module"
  · have hbuilt : Form.module.built root = root.rules ++ root.strays := by
      rw [Form.built, flatMap_admits (by decide) (by decide)]
      simp only [Form.seats, Form.isLeaf, Seat.seated, Seat.taken_rest, List.append_nil]
      rfl
    have hroot := ctx.childrenOf_perm .module root
    rw [hbuilt] at hroot
    simp only [hk, if_true, bne, Bool.not_true, Bool.and_false, Bool.false_eq_true, if_false]
    exact ⟨_, rfl, hroot⟩
  · simp only [hk, Bool.false_eq_true, if_false, bne, Bool.not_false, Bool.and_true]
    refine ⟨_, rfl, .of_eq ?_⟩
    rw [List.map_append, List.map_append, List.map_append, named_ofList, recovered_ofList,
      bare_place, bare_place]
    congr 1
    split <;> rfl

end DraftContext

end ModuleLens
