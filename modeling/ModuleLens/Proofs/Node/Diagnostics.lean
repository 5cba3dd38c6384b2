import ModuleLens.Node.Diagnostics
import ModuleLens.Proofs.Node.Drafts
import ModuleLens.Proofs.Node.Plain

/-! Diagnostics, node by node.  The diagnostics of a tree are those of its nodes one after the
other, and do not depend on the identities of these.  Messages tell a module that could not be had
and a finding of an imported module from anything else by how they begin. -/

namespace ModuleLens

/-- The start of every message about a module that could not be had. -/
def notFoundNotice : Text := "Module not found".toList

/-- The start of every message that is told at an import. -/
def includedNotice : Text := "Error in included file".toList

/-- A message about a place in a module, as it is told where that module is imported. -/
def includedMessage (path : Text) (line column : Nat) (message : String) : String :=
  "Error in included file " ++ String.ofList path ++ ":" ++ toString line ++ ":" ++
    toString column ++ ": " ++ message

theorem includedMessage_begins (path : Text) (line column : Nat) (message : String) :
    includedNotice <+: (includedMessage path line column message).toList := by
  have hh : includedMessage path line column message = "Error in included file " ++
      (String.ofList path ++ (":" ++ (toString line ++ (":" ++ (toString column ++ (": " ++
        message)))))) := by
    simp only [← String.append_assoc]
    rfl
  have hnotice : includedNotice <+: "Error in included file ".toList := by decide
  rw [hh, String.toList_append]
  exact hnotice.trans (List.prefix_append _ _)

namespace Problem

theorem notFoundNotice_begins (rest : String) :
    notFoundNotice <+: ("Module not found: " ++ rest).toList := by
  rw [String.toList_append]
  have hnotice : notFoundNotice <+: "Module not found: ".toList := by decide
  exact hnotice.trans (List.prefix_append _ _)

theorem importTooDeep_message (path : Text) (limit : Nat) :
    notFoundNotice <+: (importTooDeep path limit).message.toList := by
  have hh : (importTooDeep path limit).message = "Module not found: " ++ (String.ofList path ++
      (" (import depth limit " ++ (toString limit ++ " reached)"))) := by
    simp only [← String.append_assoc]
    rfl
  exact hh ▸ notFoundNotice_begins _

theorem importTimedOut_message (path : Text) :
    notFoundNotice <+: (importTimedOut path).message.toList := by
  have hh : (importTimedOut path).message = "Module not found: " ++ (String.ofList path ++
      " (timed out waiting for the module)") := by
    rw [← String.append_assoc]
    rfl
  exact hh ▸ notFoundNotice_begins _

theorem eq_unexpected_of_message {p : Problem} (h : p.message = unexpected.message) :
    p = unexpected := by
  have hnotice : ¬ notFoundNotice <+: p.message.toList := by
    rw [h]
    decide
  cases p with
  | unexpected => rfl
  | moduleNotFound path => exact absurd (notFoundNotice_begins (String.ofList path)) hnotice
  | importTooDeep path limit => exact absurd (importTooDeep_message path limit) hnotice
  | importTimedOut path => exact absurd (importTimedOut_message path) hnotice
  | _ => exact absurd h (by decide)

theorem not_notFound_of_included {p : Problem} (h : includedNotice <+: p.message.toList) :
    ¬ notFoundNotice <+: p.message.toList := by
  intro hh
  rcases List.prefix_or_prefix_of_prefix h hh with h | h
  · exact absurd h (by decide)
  · exact absurd h (by decide)

theorem message_not_included (p : Problem) : ¬ includedNotice <+: p.message.toList := by
  intro h
  have hnotice := not_notFound_of_included h
  cases p with
  | moduleNotFound path => exact hnotice (notFoundNotice_begins (String.ofList path))
  | importTooDeep path limit => exact hnotice (importTooDeep_message path limit)
  | importTimedOut path => exact hnotice (importTimedOut_message path)
  | _ => exact absurd h (by decide)

end Problem

theorem Finding.eq_unexpected_of_message {f : Finding}
    (h : f.message = Problem.unexpected.message) : f = .own .unexpected := by
  cases f with
  | own p => exact congrArg own (Problem.eq_unexpected_of_message h)
  | included path line column p =>
    have hh := includedMessage_begins path line column p.message
    change includedNotice <+: (included path line column p).message.toList at hh
    rw [h] at hh
    exact absurd hh Problem.unexpected.message_not_included

namespace Node

mutual

theorem diagnostics_eq : ∀ n : Node, n.diagnostics = n.nodes.flatMap shallowDiagnostics
  | mk info label outcome children => by
    rw [diagnostics, diagnosticsAll_eq children]
    rfl

theorem diagnosticsAll_eq :
    ∀ cs : List Node, diagnosticsAll cs = (underAll [] cs).flatMap shallowDiagnostics
  | [] => rfl
  | c :: cs => by
    rw [diagnosticsAll, diagnostics_eq c, diagnosticsAll_eq cs, underAll_cons, nodes,
      ← List.flatMap_append]

end

theorem role_plain (n : Node) : n.plain.role = n.role := by
  cases n
  rfl

theorem has_plain (n : Node) (role : Role) : n.plain.has role = n.has role := by
  obtain ⟨info, label, outcome, children⟩ := n
  simp only [has, plain, plainAll_eq, Node.children, List.any_map]
  congr 1
  funext c
  simp only [Function.comp, role_plain]

theorem problems_plain (n : Node) : n.plain.problems = n.problems := by
  have hlabel : n.plain.label = n.label := by
    cases n
    rfl
  simp only [problems, propertyProblems, entryProblems, has_plain, hlabel]

theorem importFindings_plain (clause : ImportClause) (outcome : Option (Outcome Node))
    (below : List Diagnostic) :
    importFindings clause (plainSlot outcome) below = importFindings clause outcome below := by
  cases outcome with
  | none => rfl
  | some o => cases o <;> rfl

theorem ownDiagnostics_plain (n : Node) (below : List Diagnostic) :
    n.plain.ownDiagnostics below = n.ownDiagnostics below := by
  obtain ⟨info, label, outcome, children⟩ := n
  simp only [ownDiagnostics, problems_plain]
  cases label with
  | importClause clause =>
    exact congrArg (List.map _) (importFindings_plain clause outcome below)
  | _ => rfl

mutual

theorem diagnostics_plain : ∀ n : Node, n.plain.diagnostics = n.diagnostics
  | mk info label outcome children => by
    have hown := ownDiagnostics_plain (mk info label outcome children)
    rw [plain] at hown ⊢
    rw [diagnostics, diagnostics, hown, outcomeDiagnostics_plain outcome,
      diagnosticsAll_plain children]

theorem outcomeDiagnostics_plain : ∀ o : Option (Outcome Node),
    outcomeDiagnostics (plainSlot o) = outcomeDiagnostics o
  | none => rfl
  | some o => targetDiagnostics_plain o

theorem targetDiagnostics_plain : ∀ o : Outcome Node,
    targetDiagnostics (plainOutcome o) = targetDiagnostics o
  | .resolved m => diagnostics_plain m
  | .notFound => rfl
  | .tooDeep _ => rfl
  | .timedOut => rfl

theorem diagnosticsAll_plain : ∀ cs : List Node,
    diagnosticsAll (plainAll cs) = diagnosticsAll cs
  | [] => rfl
  | c :: cs => by
    rw [plainAll, diagnosticsAll, diagnosticsAll, diagnostics_plain c, diagnosticsAll_plain cs]

end

end Node

end ModuleLens
