import ModuleLens.Proofs.Node.Linking
import ModuleLens.Proofs.Node.Seats

/-! Making a module node by node.  A node can draw its number when it is made instead of when the
draft is complete: what stands below a construct is made first, slot by slot, and then the construct
itself.  Some of what is made is thrown away again, imports are followed on the way, and the numbers
that are drawn meanwhile by other builds are missing here.  Each node of the module has a number of
its own among those that were drawn. -/

namespace ModuleLens

/-- What is made below a construct: a child, the operator of a binary expression, or a node that is
thrown away again. -/
inductive Item where
  | child (role : Role) (tree : SyntaxTree)
  | operator (tree : SyntaxTree)
  | spare (tree : SyntaxTree)

def Item.tree : Item → SyntaxTree
  | child _ t => t
  | operator t => t
  | spare t => t

namespace Form

open SyntaxTree

/-- The seats of a construct in the order in which they are filled, each with the role of what is
seated there. -/
def places : Form → List (Role × Seat)
  | module => [(.header, .first ["moduleHeader"]), (.member, .rest)]
  | moduleHeader => [(.clause, .rest)]
  | moduleClause => [(.name, .first DraftContext.nameKinds)]
  | importClause => [(.path, .first ["stringConstant", "slStringLiteral", "mlStringLiteral"])]
  | classDeclaration =>
    [(.name, .first ["identifier"]), (.superclass, .first ["classExtendsClause"]),
      (.body, .first ["classBody"])]
  | classProperty | objectProperty =>
    [(.name, .first ["identifier"]), (.type, .first ["typeAnnotation"]),
      (.objectBody, .every "objectBody"), (.value, .expression)]
  | objectEntry =>
    [(.objectBody, .every "objectBody"), (.key, .expression), (.value, .expression)]
  | functionDeclaration => [(.header, .first ["methodHeader"]), (.body, .expression)]
  | functionHeader =>
    [(.name, .first ["identifier"]), (.parameters, .first ["parameterList"]),
      (.result, .first ["typeAnnotation"])]
  | parameterList => [(.parameter, .rest)]
  | parameter => [(.name, .first ["identifier"]), (.type, .first ["typeAnnotation"])]
  | typeClause => [(.type, .first ["type"])]
  | typeReference => [(.name, .first DraftContext.nameKinds), (.argument, .rest)]
  | variableReference => [(.name, .first ["identifier"])]
  | methodCall => [(.name, .first ["identifier"]), (.argument, .rest)]
  | classBody | objectBody | other => [(.member, .rest)]
  | identifier | stringLiteral | numberLiteral | booleanLiteral _ | nullLiteral
  | binaryExpression => []

/-- The rules that find a place when the places are offered one after the other. -/
def placed : List (Role × Seat) → List SyntaxTree → List (Role × SyntaxTree)
  | [], _ => []
  | (role, s) :: ps, ts => (s.taken ts).map (Prod.mk role) ++ placed ps (s.left ts)

/-- Whether a construct takes what is in a rule instead of the rule itself. -/
def unwraps (form : Form) (t : SyntaxTree) : Bool :=
  form = methodCall && t.kind == "argumentList" ||
    form = classDeclaration && t.kind == "classExtendsClause"

/-- What is made for a rule in its place.  The wrong parts of a rule that is taken apart are made as
well, but no slot is for them. -/
def itemsAt (form : Form) (role : Role) (t : SyntaxTree) : List Item :=
  (if form.unwraps t then t.strays.map .spare else []) ++ (form.admits t).map (.child role)

/-- What is made for the parts of a binary expression, in source order, when so many of its rules
were made and when its operator was. -/
def operandItems : Nat → Bool → List SyntaxTree → List Item
  | _, _, [] => []
  | n, signed, t :: ts =>
    if t.isStray then .child .recovered t :: operandItems n signed ts
    else if t.isRule then
      match n with
      | 0 => .child .left t :: operandItems 1 signed ts
      | 1 => .child .right t :: operandItems 2 signed ts
      | n => .child .recovered t :: operandItems n signed ts
    else if !signed && t.isOperator then .operator t :: operandItems n true ts
    else operandItems n signed ts

/-- All that is made below a construct, one after the other. -/
def items (form : Form) (t : SyntaxTree) : List Item :=
  if form.isLeaf then []
  else if form = binaryExpression then operandItems 0 false t.children
  else
    t.strays.map (.child .recovered) ++
      (placed form.places t.rules).flatMap fun p => form.itemsAt p.1 p.2

theorem map_snd_placed (ps : List (Role × Seat)) (ts : List SyntaxTree) :
    (placed ps ts).map Prod.snd = Seat.seated (ps.map Prod.snd) ts := by
  induction ps generalizing ts with
  | nil => rfl
  | cons p ps ih =>
    rw [placed, List.map_append, List.map_map, ih, List.map_cons, Seat.seated]
    exact congrArg (· ++ _) (List.map_id _)

theorem mem_operandItems {n : Nat} {signed : Bool} {ts : List SyntaxTree} {i : Item}
    (h : i ∈ operandItems n signed ts) : i.tree ∈ ts := by
  fun_induction operandItems n signed ts with
  | case1 => cases h
  | case2 n signed t ts _ ih | case3 signed t ts _ _ ih | case4 signed t ts _ _ ih
  | case5 signed t ts _ _ n _ _ ih | case6 n signed t ts _ _ _ ih =>
    rcases List.mem_cons.1 h with rfl | h
    · exact List.mem_cons_self
    · exact List.mem_cons_of_mem t (ih h)
  | case7 n signed t ts _ _ _ ih => exact List.mem_cons_of_mem t (ih h)

theorem sizeOf_lt_of_mem_items {form : Form} {t : SyntaxTree} {i : Item} (h : i ∈ form.items t) :
    sizeOf i.tree < sizeOf t := by
  rw [items] at h
  split at h
  · cases h
  split at h
  · exact sizeOf_lt_of_mem_children (mem_operandItems h)
  rcases List.mem_append.1 h with h | h
  · obtain ⟨c, hc, rfl⟩ := List.mem_map.1 h
    exact sizeOf_lt_of_mem_children (List.mem_filter.1 hc).1
  obtain ⟨p, hp, hi⟩ := List.mem_flatMap.1 h
  have hseated := map_snd_placed form.places t.rules ▸ List.mem_map_of_mem hp
  have hrule := mem_children_of_mem_rules ((Seat.seated_subperm _ _).subset hseated)
  have hlt := sizeOf_lt_of_mem_children hrule
  -- What is in a rule that is taken apart is two levels below.
  have hdeep {c : SyntaxTree} (hc : c = p.2 ∨ c ∈ p.2.children) : sizeOf c < sizeOf t := by
    rcases hc with rfl | hc
    · exact hlt
    · exact Nat.lt_trans (sizeOf_lt_of_mem_children hc) hlt
  rcases List.mem_append.1 hi with hi | hi
  · split at hi
    · obtain ⟨c, hc, rfl⟩ := List.mem_map.1 hi
      exact hdeep (.inr (List.mem_filter.1 hc).1)
    · cases hi
  · obtain ⟨c, hc, rfl⟩ := List.mem_map.1 hi
    exact hdeep (subset_of_admits hc)

end Form

/-- The import that a node of a label asks for. -/
def Label.edge? : Label → Option ImportEdge
  | .importClause clause => clause.edge?
  | _ => none

/-- Roles in the order in which a construct lists its children. -/
def Role.listed : List Role :=
  [.header, .clause, .name, .path, .superclass, .parameters, .type, .result, .key, .value,
    .objectBody, .body, .argument, .parameter, .left, .operator, .right, .member, .recovered,
    .rejected]

/-- Nodes in the order in which a construct lists them. -/
def listed (ns : List Node) : List Node :=
  Role.listed.flatMap fun role => ns.filter fun n => n.role == role

/-- A build that makes its nodes one by one: the numbers that it draws, and what comes of the
imports that it follows, each by how many numbers were drawn before. -/
structure Making where
  context : DraftContext
  number : Nat → NodeId
  answer : Nat → ImportEdge → Outcome Node

namespace Node

def ids (n : Node) : List NodeId := n.nodes.map Node.id

end Node

namespace Making

open Node SyntaxTree

variable (m : Making)

/-- Makes a node, which draws a number when its children are there. -/
def node (next : Nat) (span : Span) (label : Label) (children : List Node) : Node :=
  .mk
    { id := m.number next, role := .root, range := m.context.scale.extent span,
      depth := m.context.depth, document := m.context.document }
    label (label.edge?.map (m.answer next)) (sortBy DraftContext.inOrder (listed children))

/-- Makes something for each element of a list, one after the other. -/
def all {α : Type} (make : α → Nat → List Node × Nat) : List α → Nat → List Node × Nat
  | [], next => ([], next)
  | a :: as, next =>
    let (ns, free) := make a next
    let (rest, free) := all make as free
    (ns ++ rest, free)

/-- Makes an item, with `tree` making a node of its tree. -/
def item (tree : Nat → Node × Nat) : Item → Nat → List Node × Nat
  | .child role _, next =>
    let (n, free) := tree next
    ([n.withRole role], free)
  | .operator t, next =>
    ([(m.node next t.span (.binaryOperator t.kind) []).withRole .operator], next + 1)
  | .spare _, next => ([], next + 1)

/-- Makes a construct when all below it is made. -/
def construct (form : Form) (t : SyntaxTree) (below : List Node × Nat) : Node × Nat :=
  let label := m.context.labelOf t (.ofList (m.context.draftAll t.children)) form
  (m.node below.2 t.span label below.1, below.2 + 1)

/-- Makes a node of a tree and all below it, when `next` numbers were drawn; also gives how many
are drawn then. -/
def tree (t : SyntaxTree) (next : Nat) : Node × Nat :=
  if t.head.wrong then
    (m.node next t.span (.unidentified (m.context.textOf t.span)) [], next + 1)
  else
    let form := Form.ofKind t.kind
    m.construct form t
      (all (fun i => m.item (fun next => tree i.1.tree next) i.1) (form.items t).attach next)
termination_by sizeOf t
decreasing_by exact Form.sizeOf_lt_of_mem_items i.2

def items (is : List Item) (next : Nat) : List Node × Nat :=
  all (fun i => m.item (m.tree i.tree) i) is next

/-- Makes a whole module; also gives how many numbers it has drawn. -/
def module (root : SyntaxTree) : Node × Nat :=
  if root.kind == "module" then m.construct .module root (m.items (Form.module.items root) 0)
  else
    let rejected := if root.head.wrong then [Item.child .rejected root] else []
    let below := m.items
      (root.strays.map (.child .recovered) ++ rejected ++ root.rules.map (.child .member)) 0
    (m.node below.2 root.span .module below.1, below.2 + 1)

theorem all_map {α β : Type} (f : α → β) (make : β → Nat → List Node × Nat) (as : List α)
    (next : Nat) : all make (as.map f) next = all (fun a => make (f a)) as next := by
  induction as generalizing next with
  | nil => rfl
  | cons a as ih => simp only [List.map_cons, all, ih]

theorem tree_of_wrong {t : SyntaxTree} (h : t.head.wrong) (next : Nat) :
    m.tree t next =
      (m.node next t.span (.unidentified (m.context.textOf t.span)) [], next + 1) := by
  rw [tree, if_pos h]

theorem tree_of_right {t : SyntaxTree} (h : t.head.wrong = false) (next : Nat) :
    m.tree t next = m.construct (.ofKind t.kind) t
      (m.items ((Form.ofKind t.kind).items t) next) := by
  have hitems := all_map Subtype.val (fun i => m.item (m.tree i.tree) i)
    ((Form.ofKind t.kind).items t).attach next
  rw [List.attach_map_subtype_val] at hitems
  rw [tree, if_neg (by simp [h]), items, hitems]

section Count

variable (n : Making)

theorem count_all {α : Type} {make other : α → Nat → List Node × Nat} {as : List α}
    (h : ∀ a ∈ as, ∀ next, (make a next).2 = (other a next).2) (next : Nat) :
    (all make as next).2 = (all other as next).2 := by
  induction as generalizing next with
  | nil => rfl
  | cons a as ih =>
    simp only [all, h a List.mem_cons_self, ih fun b hb => h b (List.mem_cons_of_mem a hb)]

theorem count_item {tree other : Nat → Node × Nat} (h : ∀ next, (tree next).2 = (other next).2)
    (i : Item) (next : Nat) : (m.item tree i next).2 = (n.item other i next).2 := by
  cases i with
  | child role t => exact h next
  | operator t => rfl
  | spare t => rfl

theorem count_tree (t : SyntaxTree) (next : Nat) : (m.tree t next).2 = (n.tree t next).2 := by
  cases hw : t.head.wrong with
  | true => rw [m.tree_of_wrong hw, n.tree_of_wrong hw]
  | false =>
    rw [m.tree_of_right hw, n.tree_of_right hw]
    refine congrArg Nat.succ (count_all (fun i hi next => count_item m n (fun next => ?_) i next) _)
    exact count_tree i.tree next
termination_by sizeOf t
decreasing_by exact Form.sizeOf_lt_of_mem_items hi

theorem count_items (is : List Item) (next : Nat) : (m.items is next).2 = (n.items is next).2 :=
  count_all (fun i _ next => count_item m n (count_tree m n i.tree) i next) next

/-- How many numbers a module takes is a matter of its tree alone. -/
theorem count_module (root : SyntaxTree) : (m.module root).2 = (n.module root).2 := by
  rw [module, module]
  split
  · exact congrArg Nat.succ (count_items m n _ 0)
  · exact congrArg Nat.succ (count_items m n _ 0)

end Count

/-- When so many numbers were drawn before and after, some nodes were made: each node in them has
one of the numbers that were drawn, and no two the same one. -/
def Drawn (next free : Nat) (ns : List Node) : Prop :=
  next ≤ free ∧ (ns.flatMap ids).Subperm ((List.range' next (free - next)).map m.number)

variable {m : Making} {next free : Nat}

theorem range_append {later : Nat} (h : next ≤ free) (h' : free ≤ later) :
    List.range' next (later - next) =
      List.range' next (free - next) ++ List.range' free (later - free) := by
  obtain ⟨k, rfl⟩ := Nat.exists_eq_add_of_le h
  obtain ⟨l, rfl⟩ := Nat.exists_eq_add_of_le h'
  rw [Nat.add_assoc, Nat.add_sub_cancel_left, Nat.add_sub_cancel_left, ← Nat.add_assoc,
    Nat.add_sub_cancel_left, List.range'_append_1]

theorem drawn_nil (h : next ≤ free) : m.Drawn next free [] := ⟨h, List.nil_subperm⟩

theorem Drawn.append {later : Nat} {ms ns : List Node} (h : m.Drawn next free ms)
    (h' : m.Drawn free later ns) : m.Drawn next later (ms ++ ns) := by
  refine ⟨Nat.le_trans h.1 h'.1, ?_⟩
  rw [List.flatMap_append, range_append h.1 h'.1, List.map_append]
  exact h.2.append h'.2

theorem ids_withRole (role : Role) (n : Node) : (n.withRole role).ids = n.ids := by
  cases n
  rfl

theorem Drawn.withRole {n : Node} (h : m.Drawn next free [n]) (role : Role) :
    m.Drawn next free [n.withRole role] := by
  refine ⟨h.1, ?_⟩
  rw [List.flatMap_singleton, ids_withRole, ← List.flatMap_singleton ids n]
  exact h.2

theorem listed_subperm (ns : List Node) : (listed ns).Subperm ns := by
  have hroles : ∀ roles : List Role, roles.Nodup →
      (roles.flatMap fun role => ns.filter fun n => n.role == role).Perm
        (ns.filter fun n => roles.contains n.role) := by
    intro roles hd
    induction roles with
    | nil => simp
    | cons role roles ih =>
      obtain ⟨hnew, hd⟩ := List.nodup_cons.1 hd
      have hsplit := List.filter_append_perm (fun n => n.role == role)
        (ns.filter fun n => (role :: roles).contains n.role)
      rw [List.filter_filter, List.filter_filter] at hsplit
      have hin (n : Node) :
          (n.role == role && (role :: roles).contains n.role) = (n.role == role) := by
        grind
      have hout (n : Node) :
          (!(n.role == role) && (role :: roles).contains n.role) = roles.contains n.role := by
        grind
      simp only [hin, hout] at hsplit
      exact ((ih hd).append_left _).trans hsplit
  exact (hroles Role.listed (by decide)).subperm.trans List.filter_sublist.subperm

theorem Drawn.node {cs : List Node} (h : m.Drawn next free cs) (span : Span) (label : Label) :
    m.Drawn next (free + 1) [m.node free span label cs] := by
  refine ⟨Nat.le_trans h.1 (Nat.le_succ free), ?_⟩
  have hbelow := subperm_flatMap
    ((sortBy_perm DraftContext.inOrder (listed cs)).subperm.trans (listed_subperm cs)) ids
  have hids : (m.node free span label cs).ids =
      m.number free :: (sortBy DraftContext.inOrder (listed cs)).flatMap ids := by
    rw [ids, nodes, descendants_eq, List.map_cons, List.map_flatMap]
    rfl
  rw [List.flatMap_singleton, hids, range_append h.1 (Nat.le_succ free), List.map_append,
    Nat.succ_sub (Nat.le_refl free), Nat.sub_self]
  refine List.Subperm.trans ?_ (List.perm_append_singleton _ _).symm.subperm
  exact (List.subperm_cons _).2 (hbelow.trans h.2)

theorem drawn_all {α : Type} {make : α → Nat → List Node × Nat} {as : List α}
    (h : ∀ a ∈ as, ∀ next, m.Drawn next (make a next).2 (make a next).1) (next : Nat) :
    m.Drawn next (all make as next).2 (all make as next).1 := by
  induction as generalizing next with
  | nil => exact drawn_nil (Nat.le_refl next)
  | cons a as ih =>
    have hrest := ih (fun b hb => h b (List.mem_cons_of_mem a hb)) (make a next).2
    exact (h a List.mem_cons_self next).append hrest

theorem drawn_item {tree : Nat → Node × Nat}
    (h : ∀ next, m.Drawn next (tree next).2 [(tree next).1]) (i : Item) (next : Nat) :
    m.Drawn next (m.item tree i next).2 (m.item tree i next).1 := by
  cases i with
  | child role t => exact (h next).withRole role
  | operator t => exact ((drawn_nil (Nat.le_refl next)).node _ _).withRole .operator
  | spare t => exact drawn_nil (Nat.le_succ next)

theorem drawn_tree (m : Making) (t : SyntaxTree) (next : Nat) :
    m.Drawn next (m.tree t next).2 [(m.tree t next).1] := by
  cases hw : t.head.wrong with
  | true =>
    rw [m.tree_of_wrong hw]
    exact (drawn_nil (Nat.le_refl next)).node _ _
  | false =>
    rw [m.tree_of_right hw]
    refine (drawn_all (fun i hi next => drawn_item (fun next => ?_) i next) next).node _ _
    exact drawn_tree m i.tree next
termination_by sizeOf t
decreasing_by exact Form.sizeOf_lt_of_mem_items hi

theorem drawn_items (is : List Item) (next : Nat) :
    m.Drawn next (m.items is next).2 (m.items is next).1 :=
  drawn_all (fun i _ next => drawn_item (m.drawn_tree i.tree) i next) next

/-- The nodes of a module have numbers that its build has drawn, each one of its own. -/
theorem ids_module (root : SyntaxTree) :
    (m.module root).1.ids.Subperm ((List.range (m.module root).2).map m.number) := by
  have hdrawn : m.Drawn 0 (m.module root).2 [(m.module root).1] := by
    rw [module]
    split
    · exact (m.drawn_items _ 0).node _ _
    · exact (m.drawn_items _ 0).node _ _
  rw [List.range_eq_range', ← List.flatMap_singleton ids]
  exact hdrawn.2

end Making

end ModuleLens
