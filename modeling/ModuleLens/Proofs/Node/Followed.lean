import ModuleLens.Proofs.Node.Gather
import ModuleLens.Proofs.Node.Levels

/-! Imports that a build follows.  They are those of the clauses that a chain of seats leads to,
each once.  A scan of the tree finds all of them, and more: it looks into comments, tokens and rules
that find no seat.  But it does not look into a clause that it can follow, not even if that is the
root, of which a build makes a module all the same. -/

namespace ModuleLens

namespace Node

def edgesAt : Label → Extent → List ImportEdge
  | .importClause clause, _ => clause.edge?.toList
  | _, _ => []

theorem requestsAt_perm (cs : List Node) :
    (requestsAt 0 cs ++ requestsAt 1 cs ++ requestsAt 2 cs ++ requestsAt 3 cs ++ requestsAt 4 cs ++
      requestsAt 5 cs).Perm (cs.flatMap requests) := by
  rw [List.perm_iff_count]
  intro r
  induction cs with
  | nil => rfl
  | cons c cs ih =>
    have hcons (k : Nat) : (requestsAt k (c :: cs)).count r =
        (if c.role.rank = k then c.requests.count r else 0) + (requestsAt k cs).count r := by
      rw [requestsAt, List.count_append]
      split <;> rfl
    have hrank : c.role.rank ≤ 5 := by
      cases c.role <;> decide
    simp only [List.count_append, hcons, List.flatMap_cons] at ih ⊢
    rw [← ih]
    obtain h | h | h | h | h | h : c.role.rank = 0 ∨ c.role.rank = 1 ∨ c.role.rank = 2 ∨
      c.role.rank = 3 ∨ c.role.rank = 4 ∨ c.role.rank = 5 := by omega
    all_goals
      simp [h]
      omega

theorem ownRequest_edges (n : Node) :
    n.ownRequest.map Request.edge = edgesAt n.label n.range := by
  rw [ownRequest, clause?]
  cases n.label with
  | importClause clause =>
    rw [Option.bind_some, edgesAt]
    cases clause.edge? <;> rfl
  | _ => rfl

/-- Every import that is followed is the one of a clause. -/
theorem requests_perm (n : Node) : (n.requests.map Request.edge).Perm (n.gather edgesAt) := by
  induction n using childInduction with
  | h n ih =>
    have hsplit : n.requests.Perm (n.ownRequest ++ n.children.flatMap requests) := by
      obtain ⟨info, label, outcome, children⟩ := n
      have hh := requestsAt_perm children
      simp only [requests, List.append_assoc] at hh ⊢
      exact hh.append_left _
    have hmap := hsplit.map Request.edge
    rw [List.map_append, ownRequest_edges, List.map_flatMap] at hmap
    rw [gather_eq]
    exact hmap.trans ((List.Perm.flatMap_left _ ih).append_left _)

end Node

theorem Form.ofKind_eq_importClause {kind : String} :
    Form.ofKind kind = .importClause ↔ SyntaxTree.isImportKind kind := by
  unfold ofKind
  split <;> simp_all [SyntaxTree.isImportKind]

namespace SyntaxTree

variable {text : Text} (scale : Scale text)

/-- The imports of the clauses that a chain of seats leads to. -/
def followed (t : SyntaxTree) : List ImportEdge :=
  if t.head.wrong then []
  else (importEdge? scale t.head t.children).toList ++
    ((Form.ofKind t.kind).built t).attach.flatMap fun c => followed c.1
termination_by sizeOf t
decreasing_by exact Form.sizeOf_lt_of_mem_built c.2

theorem followed_of_wrong {t : SyntaxTree} (h : t.head.wrong) : t.followed scale = [] := by
  rw [followed, if_pos h]

theorem followed_of_right {t : SyntaxTree} (h : t.head.wrong = false) :
    t.followed scale = (importEdge? scale t.head t.children).toList ++
      ((Form.ofKind t.kind).built t).flatMap (followed scale) := by
  rw [followed]
  simp [h]

/-- The imports that a build of a module follows: every rule of the root has a seat. -/
def followedInModule (root : SyntaxTree) : List ImportEdge :=
  (root.rules ++ root.strays).flatMap (followed scale)

theorem scanAllBy_eq (ts : List SyntaxTree) : scanAllBy scale ts = ts.flatMap (scanBy scale) := by
  induction ts with
  | nil => rfl
  | cons t ts ih => rw [scanAllBy, ih, List.flatMap_cons]

theorem scanBy_of_edge {t : SyntaxTree} {edge : ImportEdge} (hw : t.head.wrong = false)
    (ha : t.head.absent = false) (h : importEdge? scale t.head t.children = some edge) :
    t.scanBy scale = [edge] := by
  obtain ⟨head, children⟩ := t
  simp only [SyntaxTree.head, SyntaxTree.children] at hw ha h
  simp [scanBy, hw, ha, h]

theorem scanBy_of_none {t : SyntaxTree} (hw : t.head.wrong = false) (ha : t.head.absent = false)
    (h : importEdge? scale t.head t.children = none) :
    t.scanBy scale = t.children.flatMap (scanBy scale) := by
  obtain ⟨head, children⟩ := t
  simp only [SyntaxTree.head, SyntaxTree.children] at hw ha h
  simp [scanBy, hw, ha, h, scanAllBy_eq, SyntaxTree.children]

theorem importEdge?_of_kind {head : SyntaxHead} (h : isImportKind head.kind = false)
    (ts : List SyntaxTree) : importEdge? scale head ts = none := by
  simp [importEdge?, h]

theorem isImportKind_of_edge {head : SyntaxHead} {ts : List SyntaxTree} {edge : ImportEdge}
    (h : importEdge? scale head ts = some edge) : isImportKind head.kind := by
  by_contra hk
  rw [importEdge?_of_kind scale (Bool.eq_false_iff.2 hk)] at h
  cases h

theorem followed_literal {t : SyntaxTree} (h : isLiteralKind t.kind) : t.followed scale = [] := by
  have hk : t.kind = "stringConstant" ∨ t.kind = "slStringLiteral" ∨
      t.kind = "mlStringLiteral" := by
    simpa [isLiteralKind, or_assoc] using h
  have hform : Form.ofKind t.kind = .stringLiteral := by
    rcases hk with hk | hk | hk <;> rw [hk] <;> rfl
  have himport : isImportKind t.head.kind = false := by
    change isImportKind t.kind = false
    rcases hk with hk | hk | hk <;> rw [hk] <;> decide
  cases hw : t.head.wrong with
  | true => exact followed_of_wrong scale hw
  | false =>
    rw [followed_of_right scale hw, hform, importEdge?_of_kind scale himport]
    rfl

theorem followed_clause {t : SyntaxTree} (h : isImportKind t.kind) :
    ((Form.ofKind t.kind).built t).flatMap (followed scale) = [] := by
  rw [Form.ofKind_eq_importClause.2 h, Form.built,
    DraftContext.flatMap_admits (by decide) (by decide)]
  refine List.flatMap_eq_nil_iff.2 fun c hc => ?_
  rcases List.mem_append.1 hc with hc | hc
  · simp only [Form.seats, Seat.seated, List.append_nil] at hc
    have hk := Seat.kind_of_mem_taken hc
    exact followed_literal scale (by simpa [isLiteralKind, or_assoc] using hk)
  · exact followed_of_wrong scale (Bool.and_eq_true_iff.1 (List.mem_filter.1 hc).2).2

theorem scanBy_clause {t : SyntaxTree} {edge : ImportEdge} (hw : t.head.wrong = false)
    (ha : t.head.absent = false) (h : importEdge? scale t.head t.children = some edge) :
    t.scanBy scale = t.followed scale := by
  rw [scanBy_of_edge scale hw ha h, followed_of_right scale hw,
    followed_clause scale (isImportKind_of_edge scale h), h]
  rfl

theorem built_scan (form : Form) (t : SyntaxTree) :
    ((form.built t).flatMap (scanBy scale)).Subperm (t.children.flatMap (scanBy scale)) := by
  refine form.flatMap_built_subperm (fun r hr hw => ?_) t
  simp only [isRule, isVisible, Bool.and_eq_true, Bool.not_eq_true'] at hr
  have hk : isImportKind r.head.kind = false := by
    change isImportKind r.kind = false
    rcases Bool.or_eq_true_iff.1 hw with hk | hk
    · rw [beq_iff_eq.1 hk]
      decide
    · rw [beq_iff_eq.1 hk]
      decide
  rw [scanBy_of_none scale hr.2.1 hr.1.1 (importEdge?_of_kind scale hk _)]

/-- What is followed below a tree is found by a scan. -/
theorem followed_subperm {t : SyntaxTree} (h : t.isVisible) :
    (t.followed scale).Subperm (t.scanBy scale) := by
  cases hw : t.head.wrong with
  | true =>
    rw [followed_of_wrong scale hw]
    exact List.nil_subperm
  | false =>
    have ha : t.head.absent = false := by
      simpa using (Bool.and_eq_true_iff.1 h).1
    cases he : importEdge? scale t.head t.children with
    | some edge => rw [scanBy_clause scale hw ha he]
    | none =>
      rw [followed_of_right scale hw, he, scanBy_of_none scale hw ha he]
      refine (flatMap_subperm fun c hc => ?_).trans (built_scan scale (.ofKind t.kind) t)
      exact followed_subperm (Form.isVisible_of_mem_built hc)
termination_by sizeOf t
decreasing_by exact Form.sizeOf_lt_of_mem_built hc

theorem isVisible_of_mem_parts {t c : SyntaxTree} (h : c ∈ t.rules ++ t.strays) : c.isVisible := by
  rcases List.mem_append.1 h with h | h
  · exact (Bool.and_eq_true_iff.1 (List.mem_filter.1 h).2).1
  · exact (Bool.and_eq_true_iff.1 (List.mem_filter.1 h).2).1

theorem followedInModule_subperm {root : SyntaxTree} (hw : root.head.wrong = false)
    (ha : root.head.absent = false) (he : importEdge? scale root.head root.children = none) :
    (root.followedInModule scale).Subperm (root.scanBy scale) := by
  rw [scanBy_of_none scale hw ha he]
  refine (flatMap_subperm fun c hc => ?_).trans (subperm_flatMap root.rules_append_strays _)
  exact followed_subperm scale (isVisible_of_mem_parts hc)

end SyntaxTree

namespace DraftContext

open Node SyntaxTree

variable (ctx : DraftContext)

theorem edgesAt_drafted {t : SyntaxTree} (hw : t.head.wrong = false) :
    ctx.ownAt edgesAt t = (importEdge? ctx.scale t.head t.children).toList := by
  rw [ownAt, ctx.drafted_of_right hw, construct]
  cases hk : isImportKind t.kind with
  | true =>
    rw [Form.ofKind_eq_importClause.2 hk, importEdge?,
      if_pos (show isImportKind t.head.kind from hk)]
    change (ImportClause.edge? ⟨(importKind? t.head.kind t.children).getD .amending,
      importPath? ctx.scale t.children, (importKind? t.head.kind t.children).isNone⟩).toList = _
    cases importKind? t.head.kind t.children with
    | none => rfl
    | some kind => cases importPath? ctx.scale t.children <;> rfl
  | false =>
    rw [importEdge?_of_kind ctx.scale (show isImportKind t.head.kind = false from hk)]
    have hform : Form.ofKind t.kind ≠ .importClause := by
      rw [Ne, Form.ofKind_eq_importClause, hk]
      exact Bool.false_ne_true
    cases hf : Form.ofKind t.kind with
    | importClause => exact absurd hf hform
    | _ => rfl

theorem followed_eq (t : SyntaxTree) :
    t.followed ctx.scale = ctx.ownAt edgesAt t ++
      if t.head.wrong then []
      else ((Form.ofKind t.kind).built t).flatMap (followed ctx.scale) := by
  cases hw : t.head.wrong with
  | true =>
    rw [followed_of_wrong ctx.scale hw, ownAt, ctx.drafted_of_wrong hw]
    rfl
  | false =>
    rw [followed_of_right ctx.scale hw, ctx.edgesAt_drafted hw]
    rfl

theorem edges_draftModule (root : SyntaxTree) :
    ((ctx.draftModule root).gather edgesAt).Perm (root.followedInModule ctx.scale) := by
  refine (ctx.gather_draftModule (fun _ _ => rfl) ctx.followed_eq root).trans (.of_eq ?_)
  rw [show edgesAt .module (ctx.scale.extent root.span) = [] from rfl, List.nil_append]
  have hwrong : (ctx.draftWrong root.span).gather edgesAt = [] := rfl
  rw [hwrong, ite_self, List.append_nil]
  rfl

end DraftContext

open Node

/-- The imports that a build follows are those of the clauses that chains of seats lead to. -/
theorem requests_draftModule_perm (build depth : Nat) (root : SyntaxTree) (document : Document) :
    ((draftModule build root document depth).requests.map Request.edge).Perm
      (root.followedInModule (.of document.text)) := by
  refine (requests_perm _).trans ?_
  rw [draftModule, gather_number]
  exact DraftContext.edges_draftModule ⟨document, depth, .of document.text⟩ root

end ModuleLens
