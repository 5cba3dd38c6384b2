import ModuleLens.Proofs.SyntaxTree.Rows
import ModuleLens.Proofs.Text.Stretches
import ModuleLens.Sketch

/-! Trees laid out as text fit it: what is laid out for a sketch stands where its tree says. -/

namespace ModuleLens

namespace Sketch

/-- A tree in which a sketch can be read off the text, piece by piece. -/
inductive Lays (text : Text) : Sketch → SyntaxTree → Prop
  | group {kind : String} {wrong : Bool} {separator : Text} {ps : List Sketch} {span : Span}
      {ts : List SyntaxTree} (h : List.Forall₂ (Lays text) ps ts) :
      Lays text (.group kind wrong separator ps) (.node { kind, named := true, wrong, span } ts)
  | leaf {kind : String} {named : Bool} {part : Text} {span : Span}
      (h : text.slice? span.start span.stop = some part) :
      Lays text (.leaf kind named part) (.node { kind, named, span } [])
  | absent {kind : String} {b : Nat} :
      Lays text (.absent kind)
        (.node { kind, named := isRuleKind kind, absent := true, span := ⟨b, b⟩ } [])

open SyntaxTree

mutual

theorem layoutAt_row {text : Text} (offset : Nat) (p : Sketch)
    (h : Stretch.In text ⟨offset, (layoutAt offset p).1⟩) :
    Row text (fun _ => True) (Stretch.mk offset (layoutAt offset p).1).span
      [(layoutAt offset p).2] ∧ Lays text p (layoutAt offset p).2 := by
  match p with
  | group kind wrong separator children =>
    rw [layoutAt] at h ⊢
    obtain ⟨hrow, hlays⟩ := layoutAll_row offset separator false children h
    exact ⟨hrow.node rfl fun _ _ => trivial, .group hlays⟩
  | leaf kind named part =>
    rw [layoutAt] at h ⊢
    refine ⟨.leaf h.start_boundary h.stop_boundary (Nat.le_add_right _ _) rfl fun _ => trivial, ?_⟩
    exact .leaf h.slice?
  | absent kind =>
    rw [layoutAt] at h ⊢
    refine ⟨.leaf h.start_boundary h.stop_boundary (Nat.le_refl _) rfl fun _ => trivial, ?_⟩
    exact .absent

theorem layoutAll_row {text : Text} (offset : Nat) (separator : Text) (begun : Bool)
    (ps : List Sketch) (h : Stretch.In text ⟨offset, (layoutAll offset separator begun ps).1⟩) :
    Row text (fun _ => True) (Stretch.mk offset (layoutAll offset separator begun ps).1).span
      (layoutAll offset separator begun ps).2 ∧
    List.Forall₂ (Lays text) ps (layoutAll offset separator begun ps).2 := by
  match ps with
  | [] =>
    rw [layoutAll] at h ⊢
    exact ⟨.nil h.start_boundary h.stop_boundary (Nat.le_refl _), .nil⟩
  | p :: ps =>
    rw [layoutAll] at h ⊢
    dsimp only at h ⊢
    generalize (if begun && !p.isAbsent then separator else []) = gap at h ⊢
    obtain ⟨hrow, hlays⟩ := layoutAt_row (offset + gap.byteLength) p (h.sub rfl)
    have hrest := h.sub (List.append_nil _).symm
    rw [Text.byteLength_append, ← Nat.add_assoc] at hrest
    obtain ⟨hrows, hlayss⟩ := layoutAll_row _ separator (begun || !p.isAbsent) ps hrest
    refine ⟨?_, .cons hlays hlayss⟩
    refine (hrow.append hrows (Nat.le_refl _)).widen h.start_boundary h.stop_boundary
      (Nat.le_add_right _ _) (Nat.le_of_eq ?_)
    simp only [Stretch.span, Text.byteLength_append, Nat.add_assoc]

end

/-- What is laid out for a sketch fits its text, and the sketch can be read off there. -/
theorem layout_fits (p : Sketch) : p.layout.2.Fits p.layout.1 ∧ Lays p.layout.1 p p.layout.2 := by
  have hin : Stretch.In p.layout.1 ⟨0, (layoutAt 0 p).1⟩ :=
    ⟨[], [], by rw [List.append_nil]; rfl, rfl⟩
  obtain ⟨hrow, hlays⟩ := layoutAt_row 0 p hin
  exact ⟨hrow.fits _ List.mem_cons_self, hlays⟩

end Sketch

end ModuleLens
