import ModuleLens.Node.Link
import ModuleLens.Node.Reach

/-! Modules apart from the identities of their nodes.  Two builds of one document differ in the
numbers of their drafts, and in nothing else if their imports were answered alike. -/

namespace ModuleLens

namespace Node

mutual

/-- A node without the identities in it and behind its imports. -/
def plain : Node → Node
  | mk info label outcome children =>
    mk { info with id := default } label (plainSlot outcome) (plainAll children)

def plainSlot : Option (Outcome Node) → Option (Outcome Node)
  | none => none
  | some outcome => some (plainOutcome outcome)

def plainOutcome : Outcome Node → Outcome Node
  | .resolved module => .resolved (plain module)
  | .notFound => .notFound
  | .tooDeep limit => .tooDeep limit
  | .timedOut => .timedOut

def plainAll : List Node → List Node
  | [] => []
  | c :: cs => plain c :: plainAll cs

end

theorem plainSlot_eq (o : Option (Outcome Node)) : plainSlot o = o.map plainOutcome := by
  cases o <;> rfl

theorem plainAll_eq (cs : List Node) : plainAll cs = cs.map plain := by
  induction cs with
  | nil => rfl
  | cons c cs ih => simp only [plainAll, ih, List.map_cons]

theorem document_plain (n : Node) : n.plain.document = n.document := by
  cases n
  rfl

mutual

theorem descendants_plain : ∀ n : Node, n.plain.descendants = n.descendants.map plain
  | mk _ _ _ children => by
    rw [plain, descendants_mk, descendants_mk]
    exact underAll_plainAll children

theorem underAll_plainAll :
    ∀ cs : List Node, underAll [] (plainAll cs) = (underAll [] cs).map plain
  | [] => rfl
  | c :: cs => by
    rw [plainAll, underAll_cons, underAll_cons, descendants_plain c, underAll_plainAll cs]
    simp

end

theorem target?_plain (n : Node) : n.plain.target? = n.target?.map plain := by
  obtain ⟨info, label, outcome, children⟩ := n
  rcases outcome with _ | _ | _ | _ | _ <;> rfl

theorem targets_plain (n : Node) : n.plain.targets = n.targets.map plain := by
  have hh : target? ∘ plain = fun d => d.target?.map plain := funext target?_plain
  rw [targets, targets, descendants_plain, List.filterMap_map, List.map_filterMap, hh]

theorem map_targets_congr {β : Type} {m n : Node} (h : m.plain = n.plain) {f : Node → β}
    (hf : ∀ t, f t.plain = f t) : m.targets.map f = n.targets.map f := by
  have hh (k : Node) : k.targets.map f = k.plain.targets.map f := by
    rw [targets_plain, List.map_map]
    exact List.map_congr_left fun t _ => (hf t).symm
  rw [hh m, hh n, h]

/-- Answers that differ at most in identities. -/
def Answers.Alike (a b : Answers) : Prop :=
  ∀ i : Nat, a[i]?.map plainOutcome = b[i]?.map plainOutcome

theorem Answers.Alike.refl (a : Answers) : Answers.Alike a a := fun _ => rfl

theorem Answers.Alike.insert {a b : Answers} (h : Answers.Alike a b) {o p : Outcome Node}
    (ho : plainOutcome o = plainOutcome p) (i : Nat) :
    Answers.Alike (a.insert i o) (b.insert i p) := by
  intro j
  by_cases hj : i = j
  · subst hj
    simp [ho]
  · simpa [Std.TreeMap.getElem?_insert, hj] using h j

mutual

theorem number_free (b b' : Nat) :
    ∀ (next : Nat) (n : Node), (number b next n).2 = (number b' next n).2
  | next, mk _ _ _ children => by
    simp only [number]
    exact numberAll_free b b' (next + 1) children

theorem numberAll_free (b b' : Nat) :
    ∀ (next : Nat) (cs : List Node), (numberAll b next cs).2 = (numberAll b' next cs).2
  | _, [] => rfl
  | next, c :: cs => by
    simp only [numberAll]
    rw [number_free b b' next c]
    exact numberAll_free b b' _ cs

end

theorem role_number (b next : Nat) (n : Node) : (number b next n).1.role = n.role := by
  cases n
  rfl

mutual

theorem requests_number (b b' : Nat) :
    ∀ (next : Nat) (n : Node), (number b next n).1.requests = (number b' next n).1.requests
  | next, mk info label outcome children => by
    simp only [number, requests]
    simp only [requestsAt_number b b' _ (next + 1) children]
    rfl

theorem requestsAt_number (b b' : Nat) :
    ∀ (rank next : Nat) (cs : List Node),
      requestsAt rank (numberAll b next cs).1 = requestsAt rank (numberAll b' next cs).1
  | _, _, [] => rfl
  | rank, next, c :: cs => by
    simp only [numberAll, requestsAt, role_number]
    rw [requests_number b b' next c, number_free b b' next c, requestsAt_number b b' rank _ cs]

end

mutual

theorem plain_link_number {a a' : Answers} (h : Answers.Alike a a') (b b' : Nat) :
    ∀ (next : Nat) (n : Node),
      plain (link a (number b next n).1) = plain (link a' (number b' next n).1)
  | next, mk info label outcome children => by
    simp only [number, link, plain]
    rw [plainAll_link_number h b b' (next + 1) children, plainSlot_eq, plainSlot_eq,
      Option.map_or, Option.map_or, h next]

theorem plainAll_link_number {a a' : Answers} (h : Answers.Alike a a') (b b' : Nat) :
    ∀ (next : Nat) (cs : List Node),
      plainAll (linkAll a (numberAll b next cs).1) = plainAll (linkAll a' (numberAll b' next cs).1)
  | _, [] => rfl
  | next, c :: cs => by
    simp only [numberAll, linkAll, plainAll]
    rw [plain_link_number h b b' next c, number_free b b' next c,
      plainAll_link_number h b b' _ cs]

end

end Node

open Node

theorem requests_draftModule (b b' : Nat) (root : SyntaxTree) (document : Document) (depth : Nat) :
    (draftModule b root document depth).requests = (draftModule b' root document depth).requests :=
  requests_number b b' 0 _

/-- Two drafts of one tree that are linked to answers that are alike give modules that are alike. -/
theorem plain_link_draftModule {a a' : Answers} (h : Answers.Alike a a') (b b' : Nat)
    (root : SyntaxTree) (document : Document) (depth : Nat) :
    ((draftModule b root document depth).link a).plain =
      ((draftModule b' root document depth).link a').plain :=
  plain_link_number h b b' 0 _

end ModuleLens
