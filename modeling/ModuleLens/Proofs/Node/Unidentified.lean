import ModuleLens.Proofs.Node.Diagnostics
import ModuleLens.Proofs.Node.Gather

/-! Unidentified nodes.  A diagnostic about unexpected input comes from an unidentified node and
from nothing else.  Numbering and linking a module leave its unidentified nodes where they are. -/

namespace ModuleLens

namespace Node

def isUnidentified (n : Node) : Bool :=
  match n.label with
  | .unidentified _ => true
  | _ => false

/-- Where the unidentified nodes of a tree are. -/
def unidentified (n : Node) : List Extent := (n.nodes.filter isUnidentified).map range

/-- Where a tree reports unexpected input of its own. -/
def unexpected (n : Node) : List Extent :=
  (n.diagnostics.filter fun d => d.message = Problem.unexpected.message).map Diagnostic.range

theorem unexpected_not_mem_problems {n : Node} (h : n.isUnidentified = false) :
    Problem.unexpected ∉ n.problems := by
  have hif {c : Bool} {p : Problem} (hp : Problem.unexpected ∈ problemIf c p) :
      p = .unexpected := by
    rw [problemIf] at hp
    split at hp
    · exact (List.mem_singleton.1 hp).symm
    · cases hp
  rw [problems]
  intro hm
  split at hm
  · next hl => simp [isUnidentified, hl] at h
  all_goals grind [propertyProblems, entryProblems]

theorem own_unexpected_not_mem_importFindings (clause : ImportClause)
    (outcome : Option (Outcome Node)) (below : List Diagnostic) :
    Finding.own .unexpected ∉ importFindings clause outcome below := by
  intro hm
  rcases List.mem_append.1 hm with hm | hm
  · rw [problemIf] at hm
    split at hm <;> simp at hm
  · split at hm
    · simp at hm
    · split at hm
      case h_5 =>
        obtain ⟨d, _, hd⟩ := List.mem_map.1 hm
        rw [Diagnostic.carried] at hd
        split at hd
        · cases hd
        · next hne => exact hne _ hd
      all_goals simp at hm

/-- A node reports unexpected input once if it is unidentified, and otherwise not at all. -/
theorem shallowDiagnostics_unexpected (n : Node) :
    (n.shallowDiagnostics.filter fun d => d.message = Problem.unexpected.message).map
      Diagnostic.range = if n.isUnidentified then [n.range] else [] := by
  split
  · next h =>
    have hl : ∃ text, n.label = .unidentified text := by
      rw [isUnidentified] at h
      split at h
      · exact ⟨_, by assumption⟩
      · cases h
    obtain ⟨text, hl⟩ := hl
    have hown : n.shallowDiagnostics = [⟨n.range, .own .unexpected⟩] := by
      simp [shallowDiagnostics, ownDiagnostics, problems, hl]
    rw [hown, List.filter_cons, if_pos]
    · rfl
    · exact decide_eq_true rfl
  · next h =>
    have hnone : ∀ d ∈ n.shallowDiagnostics, d.message ≠ Problem.unexpected.message := by
      intro d hd hmessage
      obtain ⟨f, hf, rfl⟩ := List.mem_map.1 hd
      have hown : f = .own .unexpected := Finding.eq_unexpected_of_message hmessage
      subst hown
      split at hf
      · exact own_unexpected_not_mem_importFindings _ _ _ hf
      · obtain ⟨p, hp, he⟩ := List.mem_map.1 hf
        cases he
        exact unexpected_not_mem_problems (Bool.eq_false_iff.2 h) hp
    rw [List.filter_eq_nil_iff.2 fun d hd => by simpa using hnone d hd]
    rfl

theorem unexpected_eq (n : Node) : n.unexpected = n.unidentified := by
  rw [unexpected, unidentified, diagnostics_eq, List.filter_flatMap, List.map_flatMap]
  simp only [shallowDiagnostics_unexpected]
  induction n.nodes with
  | nil => rfl
  | cons d ds ih =>
    rw [List.flatMap_cons, ih, List.filter_cons]
    split <;> rfl

/-- The place of a node, if it is unidentified. -/
def unidentifiedAt : Label → Extent → List Extent
  | .unidentified _, range => [range]
  | _, _ => []

theorem unidentified_eq (n : Node) : n.unidentified = n.gather unidentifiedAt := by
  have hown (d : Node) : unidentifiedAt d.label d.range =
      if d.isUnidentified then [d.range] else [] := by
    rw [isUnidentified]
    cases d.label <;> rfl
  rw [unidentified, gather]
  induction n.nodes with
  | nil => rfl
  | cons d ds ih =>
    rw [List.flatMap_cons, ← ih, hown, List.filter_cons]
    split <;> rfl

theorem unidentified_link (answers : Answers) (n : Node) :
    (n.link answers).unidentified = n.unidentified := by
  rw [unidentified_eq, unidentified_eq, gather_link]

theorem unidentified_number (build next : Nat) (n : Node) :
    (number build next n).1.unidentified = n.unidentified := by
  rw [unidentified_eq, unidentified_eq, gather_number]

end Node

end ModuleLens
