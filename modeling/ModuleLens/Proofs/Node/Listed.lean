import ModuleLens.Proofs.Node.Blank

/-! What is made below a construct, slot by slot, against the children of its draft.  The items of a
construct come in the order in which its slots are filled, and among them are some that are thrown
away; listed by their roles they are the children that the draft has, in its order.  So a module
that is made node by node is the draft of its tree with identities and outcomes. -/

namespace ModuleLens

namespace DraftContext

open Node SyntaxTree

variable (ctx : DraftContext)

/-- The draft of what is made, if it is not thrown away. -/
def itemDraft : Item → List Node
  | .child role t => [(ctx.drafted t).withRole role]
  | .operator t => [(ctx.sign t).withRole .operator]
  | .spare _ => []

/-- The drafts for the rules that find a place. -/
def housed (form : Form) : List (Role × Seat) → List SyntaxTree → List Node
  | [], _ => []
  | (role, s) :: ps, ts =>
    place role (((s.taken ts).flatMap form.admits).map ctx.draftPart) ++ housed form ps (s.left ts)

theorem itemDraft_child (role : Role) (ts : List SyntaxTree) :
    (ts.map (Item.child role)).flatMap ctx.itemDraft = place role (ts.map ctx.draftPart) := by
  rw [List.flatMap_map, place, List.map_map]
  exact List.flatMap_pure_eq_map _ ts

theorem itemDraft_itemsAt (form : Form) (role : Role) (t : SyntaxTree) :
    (form.itemsAt role t).flatMap ctx.itemDraft =
      place role ((form.admits t).map ctx.draftPart) := by
  have hspare (ts : List SyntaxTree) : (ts.map Item.spare).flatMap ctx.itemDraft = [] := by
    rw [List.flatMap_map]
    exact List.flatMap_eq_nil_iff.2 fun _ _ => rfl
  rw [Form.itemsAt, List.flatMap_append, itemDraft_child]
  split
  · rw [hspare, List.nil_append]
  · rfl

theorem itemDraft_placed (form : Form) (ps : List (Role × Seat)) (ts : List SyntaxTree) :
    ((Form.placed ps ts).flatMap fun p => form.itemsAt p.1 p.2).flatMap ctx.itemDraft =
      ctx.housed form ps ts := by
  induction ps generalizing ts with
  | nil => rfl
  | cons p ps ih =>
    have hplace (role : Role) (rs : List SyntaxTree) :
        ((rs.map (Prod.mk role)).flatMap fun p => form.itemsAt p.1 p.2).flatMap ctx.itemDraft =
          place role ((rs.flatMap form.admits).map ctx.draftPart) := by
      rw [List.flatMap_assoc, List.flatMap_map]
      simp only [itemDraft_itemsAt, place, List.map_flatMap]
    rw [Form.placed, List.flatMap_append, List.flatMap_append, ih, hplace, housed]

theorem filter_place (role other : Role) (ps : List Part) :
    (place role ps).filter (fun n => n.role == other) =
      if role = other then place role ps else [] := by
  have hrole : ∀ n ∈ place role ps, n.role = role := by
    intro n hn
    obtain ⟨p, _, rfl⟩ := List.mem_map.1 hn
    cases p.node
    rfl
  split
  · next h => exact List.filter_eq_self.2 fun n hn => by simp [hrole n hn, h]
  · next h => exact List.filter_eq_nil_iff.2 fun n hn => by simp [hrole n hn, h]

section Operands

variable (n : Nat) (signed : Bool) (ts : List SyntaxTree)

theorem filter_left_operandItems :
    ((Form.operandItems n signed ts).flatMap ctx.itemDraft).filter (fun n => n.role == .left) =
      place .left (((ts.filter isRule).take (1 - n)).map ctx.draftPart) := by
  fun_induction Form.operandItems n signed ts with
  | case1 => simp [place]
  | case2 n signed t ts hs ih => simp [itemDraft, role_withRole, isRule_of_isStray hs, ih]
  | case3 signed t ts _ hr ih | case4 signed t ts _ hr ih =>
    simp [itemDraft, role_withRole, hr, ih, place, drafted]
  | case5 signed t ts _ hr n h0 h1 ih =>
    have hn : 1 - n = 0 := Nat.sub_eq_zero_of_le (Nat.pos_of_ne_zero h0)
    simp [itemDraft, role_withRole, hr, ih, hn, place]
  | case6 n signed t ts _ hr _ ih | case7 n signed t ts _ hr _ ih =>
    simp [itemDraft, role_withRole, hr, ih]

theorem filter_right_operandItems :
    ((Form.operandItems n signed ts).flatMap ctx.itemDraft).filter (fun n => n.role == .right) =
      place .right
        ((((ts.filter isRule).drop (1 - n)).take (min 1 (2 - n))).map ctx.draftPart) := by
  fun_induction Form.operandItems n signed ts with
  | case1 => simp [place]
  | case2 n signed t ts hs ih => simp [itemDraft, role_withRole, isRule_of_isStray hs, ih]
  | case3 signed t ts _ hr ih | case4 signed t ts _ hr ih =>
    simp [itemDraft, role_withRole, hr, ih, place, drafted]
  | case5 signed t ts _ hr n h0 h1 ih =>
    have hn : 2 - n = 0 :=
      Nat.sub_eq_zero_of_le (Nat.lt_of_le_of_ne (Nat.pos_of_ne_zero h0) (Ne.symm h1))
    simp [itemDraft, role_withRole, hr, ih, hn, place]
  | case6 n signed t ts _ hr _ ih | case7 n signed t ts _ hr _ ih =>
    simp [itemDraft, role_withRole, hr, ih]

theorem filter_operator_operandItems :
    ((Form.operandItems n signed ts).flatMap ctx.itemDraft).filter
        (fun n => n.role == .operator) =
      if signed then []
      else ((ts.find? isOperator).map fun t => (ctx.sign t).withRole .operator).toList := by
  fun_induction Form.operandItems n signed ts with
  | case1 => simp
  | case2 n signed t ts hs ih => simp [itemDraft, role_withRole, isRule_of_isStray hs, ih]
  | case3 signed t ts _ hr ih | case4 signed t ts _ hr ih | case5 signed t ts _ hr _ _ _ ih =>
    simp [itemDraft, role_withRole, isStray_of_isRule hr, ih]
  | case6 n signed t ts _ _ ho ih =>
    rw [Bool.and_eq_true, Bool.not_eq_true'] at ho
    simp [itemDraft, role_withRole, ho, ih]
  | case7 n signed t ts _ _ ho ih =>
    cases signed with
    | true => exact ih
    | false =>
      have ho : t.isOperator = false := by simpa using ho
      simpa [List.find?_cons, ho] using ih

theorem filter_recovered_operandItems :
    ((Form.operandItems n signed ts).flatMap ctx.itemDraft).filter
        (fun n => n.role == .recovered) =
      place .recovered
        (operands.leftOver (2 - n) ((ts.filter isVisible).map ctx.draftPart)) := by
  have hvisible {t : SyntaxTree} (h : t.isStray ∨ t.isRule) : t.isVisible := by
    rcases h with h | h <;> exact (Bool.and_eq_true_iff.1 h).1
  have hwrong (t : SyntaxTree) : (ctx.draftPart t).isWrong = t.head.wrong := by
    rw [Part.isWrong, tree_draftPart]
  have hnamed (t : SyntaxTree) : (ctx.draftPart t).isNamed = (!t.head.wrong && t.head.named) := by
    rw [Part.isNamed, hwrong, tree_draftPart]
  have hrule {t : SyntaxTree} (h : t.isRule) : t.head.wrong = false ∧ t.head.named := by
    simpa [isRule] using (Bool.and_eq_true_iff.1 h).2
  -- Of what is neither wrong nor a rule nothing is left over.
  have hskip {t : SyntaxTree} (hs : ¬ t.isStray) (hr : ¬ t.isRule) (n : Nat)
      (ts : List SyntaxTree) :
      operands.leftOver n (((t :: ts).filter isVisible).map ctx.draftPart) =
        operands.leftOver n ((ts.filter isVisible).map ctx.draftPart) := by
    cases hv : t.isVisible with
    | false => simp [hv]
    | true =>
      simp only [isStray, isRule, hv, Bool.true_and, Bool.not_eq_true] at hs hr
      simp only [hs, Bool.not_false, Bool.true_and] at hr
      simp [hv, operands.leftOver, hwrong, hnamed, hs, hr]
  fun_induction Form.operandItems n signed ts with
  | case1 => simp [place, operands.leftOver]
  | case2 n signed t ts hs ih =>
    have hw := (Bool.and_eq_true_iff.1 hs).2
    simp [itemDraft, role_withRole, ih, hvisible (.inl hs), operands.leftOver, hwrong, hw, place,
      drafted]
  | case3 signed t ts _ hr ih | case4 signed t ts _ hr ih =>
    simp [itemDraft, role_withRole, ih, hvisible (.inr hr), operands.leftOver, hwrong, hnamed,
      hrule hr]
  | case5 signed t ts _ hr n h0 h1 ih =>
    have hn : 2 - n = 0 :=
      Nat.sub_eq_zero_of_le (Nat.lt_of_le_of_ne (Nat.pos_of_ne_zero h0) (Ne.symm h1))
    simp [itemDraft, role_withRole, ih, hn, hvisible (.inr hr), operands.leftOver, hwrong, hnamed,
      hrule hr, place, drafted]
  | case6 n signed t ts hs hr _ ih | case7 n signed t ts hs hr _ ih =>
    simp [itemDraft, role_withRole, ih, hskip hs hr]

theorem filter_other_operandItems {role : Role} (hl : role ≠ .left) (hr : role ≠ .right)
    (ho : role ≠ .operator) (hrec : role ≠ .recovered) :
    ((Form.operandItems n signed ts).flatMap ctx.itemDraft).filter (fun n => n.role == role) =
      [] := by
  fun_induction Form.operandItems n signed ts with
  | case1 => rfl
  | case2 _ _ _ _ _ ih | case3 _ _ _ _ _ ih | case4 _ _ _ _ _ ih | case5 _ _ _ _ _ _ _ _ ih
  | case6 _ _ _ _ _ _ _ ih | case7 _ _ _ _ _ _ _ ih =>
    simp [itemDraft, role_withRole, ih, hl.symm, hr.symm, ho.symm, hrec.symm]

end Operands

theorem listed_operands (t : SyntaxTree) :
    listed ((Form.operandItems 0 false t.children).flatMap ctx.itemDraft) =
      ctx.operands (.ofList (t.children.map ctx.draftPart)) := by
  have htake (role : Role) (ts : List SyntaxTree) :
      ((ts.map ctx.draftPart).take 1).map (fun p => p.node.withRole role) =
        place role ((ts.take 1).map ctx.draftPart) := by rw [← List.map_take, place]
  simp (disch := decide) only [listed, Role.listed, List.flatMap_cons, List.flatMap_nil,
    filter_other_operandItems, filter_left_operandItems, filter_right_operandItems,
    filter_operator_operandItems, filter_recovered_operandItems, List.nil_append, operands,
    named_ofList, htake, ← List.map_drop, operator_ofList]
  simp [visible_ofList, place, rules, sign, tree_draftPart, kind_draftPart, Function.comp_def]

/-- Listed, the drafts of all that is made below a construct are its children. -/
theorem listed_items (form : Form) (t : SyntaxTree) :
    listed ((form.items t).flatMap ctx.itemDraft) =
      ctx.childrenOf (.ofList (t.children.map ctx.draftPart)) form := by
  by_cases hb : form = .binaryExpression
  · subst hb
    exact ctx.listed_operands t
  by_cases hl : form.isLeaf
  · rw [Form.items, if_pos hl]
    cases form <;> first | exact absurd hl Bool.false_ne_true | rfl
  rw [Form.items, if_neg hl, if_neg hb, List.flatMap_append, itemDraft_child, itemDraft_placed]
  cases form
  case binaryExpression => exact absurd rfl hb
  all_goals
    simp (disch := decide) only [Form.isLeaf, not_true_eq_false] at hl
  all_goals
    simp (disch := decide) only [childrenOf, propertyChildren, entryChildren, named_ofList,
      recovered_ofList, pick_map, pickAll_map, leave_map, others_map, take_expressions,
      drop_expressions, Form.places, housed, flatMap_admits, flatMap_admits_taken, Seat.taken_rest,
      Seat.taken_left, Seat.taken_every_left, Seat.taken_expression_left, argumentsOf_map,
      superclass_map, List.append_nil, listed, Role.listed, List.flatMap_cons, List.flatMap_nil,
      List.filter_append, filter_place]
  all_goals simp

end DraftContext

namespace Making

open Node SyntaxTree

variable (m : Making)

theorem blank_node (next : Nat) (span : Span) (label : Label) (cs : List Node) :
    (m.node next span label cs).blank = m.context.make span label (listed (cs.map blank)) := by
  have hsorted := map_sortBy DraftContext.inOrder_blank (listed cs)
  rw [← listed_blank] at hsorted
  simp only [node, blank, blankAll_eq, hsorted, DraftContext.make]

theorem blank_all {α : Type} {make : α → Nat → List Node × Nat} {f : α → List Node} {as : List α}
    (h : ∀ a ∈ as, ∀ next, (make a next).1.map blank = f a) (next : Nat) :
    (all make as next).1.map blank = as.flatMap f := by
  induction as generalizing next with
  | nil => rfl
  | cons a as ih =>
    have hrest := ih (fun b hb => h b (List.mem_cons_of_mem a hb)) (make a next).2
    simp only [all, List.map_append, List.flatMap_cons, hrest, h a List.mem_cons_self]

theorem blank_item {tree : Nat → Node × Nat} (i : Item)
    (h : ∀ next, (tree next).1.blank = m.context.drafted i.tree) (next : Nat) :
    (m.item tree i next).1.map blank = m.context.itemDraft i := by
  cases i with
  | child role t =>
    simp only [item, List.map_singleton, blank_withRole, h]
    rfl
  | operator t =>
    simp only [item, List.map_singleton, blank_withRole, blank_node]
    rfl
  | spare t => rfl

theorem blank_construct {form : Form} {t : SyntaxTree} {below : List Node × Nat}
    (h : below.1.map blank = (form.items t).flatMap m.context.itemDraft) :
    (m.construct form t below).1.blank =
      m.context.construct form t (.ofList (t.children.map m.context.draftPart)) := by
  rw [construct, blank_node, h, DraftContext.listed_items, DraftContext.draftAll_eq,
    DraftContext.construct]

theorem blank_tree (t : SyntaxTree) (next : Nat) :
    (m.tree t next).1.blank = m.context.drafted t := by
  cases hw : t.head.wrong with
  | true =>
    rw [m.tree_of_wrong hw, DraftContext.drafted_of_wrong _ hw, blank_node]
    rfl
  | false =>
    rw [m.tree_of_right hw, DraftContext.drafted_of_right _ hw]
    refine m.blank_construct (blank_all (fun i hi next => ?_) next)
    exact m.blank_item i (fun next => blank_tree i.tree next) next
termination_by sizeOf t
decreasing_by exact Form.sizeOf_lt_of_mem_items hi

theorem blank_items (is : List Item) (next : Nat) :
    (m.items is next).1.map blank = is.flatMap m.context.itemDraft :=
  blank_all (fun i _ next => m.blank_item i (m.blank_tree i.tree) next) next

/-- A module that is made node by node is the draft of its tree, but for identities and outcomes. -/
theorem blank_module (root : SyntaxTree) :
    (m.module root).1.blank = m.context.draftModule root := by
  rw [module, DraftContext.draftModule, DraftContext.draftAll_eq]
  split
  · exact m.blank_construct (m.blank_items _ 0)
  · let wrong := if root.head.wrong then [root] else []
    have hwrong : place .rejected (wrong.map m.context.draftPart) =
        if root.head.wrong then [(m.context.draftWrong root.span).withRole .rejected] else [] := by
      dsimp only [wrong]
      split
      · next hw =>
        rw [← m.context.drafted_of_wrong hw]
        rfl
      · rfl
    have hitems : (if root.head.wrong then [Item.child .rejected root] else []) =
        wrong.map (Item.child .rejected) := by
      dsimp only [wrong]
      split <;> rfl
    rw [blank_node, blank_items, hitems, ← hwrong, DraftContext.named_ofList,
      DraftContext.recovered_ofList]
    simp only [List.flatMap_append, DraftContext.itemDraft_child, listed, Role.listed,
      List.flatMap_cons, List.flatMap_nil, List.filter_append, DraftContext.filter_place]
    simp

end Making

end ModuleLens
