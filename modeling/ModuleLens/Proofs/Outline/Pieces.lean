import ModuleLens.Proofs.Node.Faults
import ModuleLens.Proofs.Outline.Fitting
import ModuleLens.Proofs.Outline.Required

/-! Reports of the pieces of an outline.  An atom has nothing to report, a binary expression that it
has no operator, a type clause that it has no type, and an import that there is no such module. -/

namespace ModuleLens

namespace Outline

open Node SyntaxTree

/-- What is asked for over a span, as it is reported of a text. -/
def placed (text : Text) (r : Span × String) : Extent × String := (Extent.ofSpan text r.1, r.2)

variable (ctx : DraftContext) {t : SyntaxTree}

/-- A tree of a value: a rule that fills the slot of one. -/
structure Valued (t : SyntaxTree) : Prop where
  rule : t.isRule
  value : isExpressionKind t.kind
  body : t.kind != "objectBody"

/-- A tree of a type: a type clause that is not empty. -/
structure Typed (t : SyntaxTree) : Prop where
  rule : t.isRule
  kind : t.kind = "typeAnnotation"
  filled : t.span.start < t.span.stop

theorem Valued.kind_ne (h : Valued t) : t.kind ≠ "objectBody" ∧ t.kind ≠ "typeAnnotation" := by
  refine ⟨bne_iff_ne.1 h.body, fun hk => ?_⟩
  have hh := h.value
  rw [hk] at hh
  exact absurd hh (by decide)

theorem reports_leaf {kind : String} (h : (Form.ofKind kind).isLeaf) (span : Span) :
    (ctx.drafted (leaf kind span)).reports = [] := by
  let t := leaf kind span
  have hbuilt (form : Form) : form.built t = [] := by cases form <;> rfl
  have hfaults (form : Form) (hf : form.isLeaf)
      (hl : (ctx.drafted t).label = ctx.labelOf t (.ofList (t.children.map ctx.draftPart)) form) :
      (ctx.drafted t).faults = [] := by
    rw [faults, problems, hl]
    cases form
    all_goals first
      | rfl
      | exact absurd hf Bool.false_ne_true
  have hown := ctx.reports_of_silent (t := t) rfl (hbuilt _) (List.forall_mem_nil _)
  rw [hown, ctx.ownReports_drafted, hfaults _ h (ctx.label_drafted rfl)]
  rfl

theorem reports_variable (span : Span) :
    (ctx.drafted (rule "variableExpr" span [leaf "identifier" span])).reports = [] := by
  let t := rule "variableExpr" span [leaf "identifier" span]
  have hform : Form.ofKind t.kind = .variableReference := rfl
  have hbuilt : (Form.ofKind t.kind).built t = [leaf "identifier" span] := rfl
  have hname : ∀ c ∈ [leaf "identifier" span], (ctx.drafted c).reports = [] :=
    List.forall_mem_singleton.2 (reports_leaf ctx rfl span)
  have hown := ctx.reports_of_silent (t := t) rfl hbuilt hname
  have hlabel := ctx.label_drafted (t := t) rfl
  rw [hform] at hlabel
  rw [hown, ctx.ownReports_drafted, faults, problems, hlabel]
  rfl

theorem atom_cases {w : Word} (h : atom w = some t) :
    (∃ kind, t = leaf kind w.span ∧ (Form.ofKind kind).isLeaf ∧ Valued (leaf kind w.span)) ∨
      t = rule "variableExpr" w.span [leaf "identifier" w.span] := by
  rw [atom] at h
  split_ifs at h
  all_goals cases h
  all_goals first
    | exact .inr rfl
    | exact .inl ⟨_, rfl, rfl, rfl, rfl, rfl⟩

theorem valued_atom {w : Word} (h : atom w = some t) :
    Valued t ∧ (ctx.drafted t).reports = [] := by
  rcases atom_cases h with ⟨kind, rfl, hleaf, hvalued⟩ | rfl
  · exact ⟨hvalued, reports_leaf ctx hleaf _⟩
  · exact ⟨⟨rfl, rfl, rfl⟩, reports_variable ctx _⟩

theorem reports_binary {span : Span} {left right : SyntaxTree} (signs : List SyntaxTree)
    (hl : left.isRule ∧ (ctx.drafted left).reports = [])
    (hr : right.isRule ∧ (ctx.drafted right).reports = [])
    (hsigns : ∀ s ∈ signs, s.isRule = false ∧ s.isStray = false) :
    (ctx.drafted (rule "binaryExpr" span (left :: (signs ++ [right])))).reports =
      if signs.any isOperator then []
      else [placed ctx.document.text (span, "Provide binary operator")] := by
  let t := rule "binaryExpr" span (left :: (signs ++ [right]))
  have hrules : t.rules = [left, right] := by
    have hnone : signs.filter isRule = [] :=
      List.filter_eq_nil_iff.2 fun s hs => Bool.eq_false_iff.1 (hsigns s hs).1
    simp [t, rules, rule, SyntaxTree.children, List.filter_append, hnone, hl.1, hr.1]
  have hstrays : t.strays = [] := by
    have hnone : signs.filter isStray = [] :=
      List.filter_eq_nil_iff.2 fun s hs => Bool.eq_false_iff.1 (hsigns s hs).2
    simp [t, strays, rule, SyntaxTree.children, List.filter_append, hnone,
      (isStray_of_isRule hl.1).1, (isStray_of_isRule hr.1).1]
  have hany : t.children.any isOperator = signs.any isOperator := by
    simp [t, rule, SyntaxTree.children, (isStray_of_isRule hl.1).2, (isStray_of_isRule hr.1).2]
  have hbuilt : Form.binaryExpression.built t = [left, right] := by
    rw [Form.built, DraftContext.flatMap_admits (by decide) (by decide), hrules, hstrays]
    rfl
  have hsilent : ∀ c ∈ [left, right], (ctx.drafted c).reports = [] := by simp [hl.2, hr.2]
  have hown := ctx.reports_of_silent (t := t) rfl hbuilt hsilent
  rw [hown, ctx.ownReports_drafted, ctx.faults_binary rfl rfl hrules, hany]
  cases signs.any isOperator <;> rfl

theorem isRule_token (kind : String) (span : Span) :
    (token kind span).isRule = false ∧ (token kind span).isStray = false := by
  simp [isRule, isStray, token, SyntaxTree.head]

theorem isOperator_token {operator : String} (h : operator ∈ operators) (span : Span) :
    (token operator span).isOperator := by
  have hvisible : ∀ o ∈ operators, isCommentKind o = false := by decide
  have hword : ∀ o ∈ operators, operatorWords.contains o := by decide
  have hkind : (token operator span).kind = operator := rfl
  rw [isOperator, isVisible, hkind, hvisible operator h, hword operator h]
  rfl

theorem exists_operands {l r : Word} {f : SyntaxTree → SyntaxTree → SyntaxTree}
    (h : ((atom l).bind fun left => (atom r).bind fun right => some (f left right)) = some t) :
    ∃ left right, t = f left right ∧ (left.isRule ∧ (ctx.drafted left).reports = []) ∧
      (right.isRule ∧ (ctx.drafted right).reports = []) := by
  obtain ⟨left, right, hl, hr, rfl⟩ := atoms_eq_some h
  obtain ⟨hvl, hsl⟩ := valued_atom ctx hl
  obtain ⟨hvr, hsr⟩ := valued_atom ctx hr
  exact ⟨left, right, rfl, ⟨hvl.rule, hsl⟩, hvr.rule, hsr⟩

theorem reports_expression {ws : List Word} (h : expression ws = some t) :
    Valued t ∧ (ctx.drafted t).reports =
      (requiredOperator ws).map (placed ctx.document.text) := by
  unfold expression at h
  split at h
  · exact valued_atom ctx h
  · obtain ⟨left, right, rfl, hl, hr⟩ := exists_operands ctx h
    exact ⟨⟨rfl, rfl, rfl⟩, reports_binary ctx [] hl hr nofun⟩
  · next l o r =>
    dsimp only at h
    split at h
    · next ho =>
      obtain ⟨left, right, rfl, hl, hr⟩ := exists_operands ctx h
      have hsign := isOperator_token (List.contains_iff_mem.1 ho) o.span
      have hmark : ∀ s ∈ [token (String.ofList o.text) o.span],
          s.isRule = false ∧ s.isStray = false := List.forall_mem_singleton.2 (isRule_token _ _)
      refine ⟨⟨rfl, rfl, rfl⟩, (reports_binary ctx _ hl hr hmark).trans ?_⟩
      rw [List.any_cons, hsign]
      rfl
    · cases h
  · cases h

theorem reports_typeName (span : Span) :
    (ctx.drafted (rule "type" span [leaf "qualifiedIdentifier" span])).reports = [] := by
  let t := rule "type" span [leaf "qualifiedIdentifier" span]
  have hbuilt : Form.typeReference.built t = [leaf "qualifiedIdentifier" span] := rfl
  have hown := ctx.reports_of_silent (t := t) rfl hbuilt (List.forall_mem_singleton.2 rfl)
  rw [hown, ctx.ownReports_drafted, ctx.faults_typeReference rfl rfl]
  rfl

theorem reports_typeClause {colon : Nat} {q : Stretch} (hs : q.start = colon + 1)
    (h : typeClause colon q.text = some t) : Typed t ∧ (ctx.drafted t).reports =
      if (wordsOf q).isEmpty then
        [placed ctx.document.text (⟨colon, colon + 1⟩, "Provide type identifier")]
      else [] := by
  let mark := token ":" ⟨colon, colon + 1⟩
  have hholds := words_holds q.start q.text
  rw [typeClause, ← hs] at h
  rw [wordsOf]
  split at h
  · next hw =>
    rw [hs] at h
    cases h
    let t := rule "typeAnnotation" ⟨colon, colon + 1⟩ [mark]
    have hbuilt : Form.typeClause.built t = [] := rfl
    have hown := ctx.reports_of_silent (t := t) rfl hbuilt (List.forall_mem_nil _)
    refine ⟨⟨rfl, rfl, Nat.lt_succ_self colon⟩, ?_⟩
    rw [hw, hown, ctx.ownReports_drafted, ctx.faults_typeClause rfl rfl]
    rfl
  · next w hw =>
    split at h
    · rw [hs] at h
      cases h
      let type := rule "type" w.span [leaf "qualifiedIdentifier" w.span]
      let t := rule "typeAnnotation" ⟨colon, w.span.stop⟩ [mark, type]
      have hbuilt : Form.typeClause.built t = [type] := rfl
      have htype : ∀ c ∈ [type], (ctx.drafted c).reports = [] :=
        List.forall_mem_singleton.2 (reports_typeName ctx w.span)
      have hown := ctx.reports_of_silent (t := t) rfl hbuilt htype
      have hfilled : colon < w.span.stop := by
        rw [hw] at hholds
        have hin := hholds.1 w.span List.mem_cons_self
        exact Nat.lt_of_lt_of_le (hs ▸ Nat.lt_succ_self colon) (Nat.le_trans hin.1 hin.2.1)
      refine ⟨⟨rfl, rfl, hfilled⟩, ?_⟩
      rw [hw, hown, ctx.ownReports_drafted, ctx.faults_typeClause rfl rfl]
      rfl
    · cases h
  · cases h

theorem reports_clause {kind : String} {span : Span} {keyword path : Word}
    (hk : Form.ofKind kind = .importClause)
    (hkind : (importKind? kind (linkParts keyword path)).isSome)
    (hpath : ctx.document.text.slice? path.span.start path.span.stop = some path.text) :
    (ctx.drafted (rule kind span (linkParts keyword path))).reports =
      [placed ctx.document.text
        (span, "Module not found: " ++ String.ofList (Text.literalBody path.text))] := by
  let t := rule kind span (linkParts keyword path)
  have hbuilt : (Form.ofKind t.kind).built t = [leaf "stringConstant" path.span] := by
    obtain ⟨hrule, hstray⟩ := isRule_token (String.ofList keyword.text) keyword.span
    have hrules : t.rules = [leaf "stringConstant" path.span] := by
      rw [show t.rules = (linkParts keyword path).filter isRule from rfl, linkParts,
        List.filter_cons_of_neg (Bool.eq_false_iff.1 hrule)]
      rfl
    have hstrays : t.strays = [] := by
      rw [show t.strays = (linkParts keyword path).filter isStray from rfl, linkParts,
        List.filter_cons_of_neg (Bool.eq_false_iff.1 hstray)]
      rfl
    rw [show Form.ofKind t.kind = .importClause from hk, Form.built,
      DraftContext.flatMap_admits (by decide) (by decide), hrules, hstrays]
    rfl
  have hlabel : (ctx.drafted t).label = .importClause
      { kind := (importKind? kind (linkParts keyword path)).getD .amending
        path := some (Text.literalBody path.text)
        conflict := false } := by
    have hslice : ctx.scale.slice path.span = path.text := by
      rw [Scale.slice_eq, Text.slice, hpath, Option.getD_some]
    have hfound : importPath? ctx.scale (linkParts keyword path) =
        some (Text.literalBody (ctx.scale.slice path.span)) := rfl
    have hconflict : (importKind? kind (linkParts keyword path)).isNone = false := by
      rw [← Option.not_isSome, hkind]
      rfl
    rw [ctx.label_drafted rfl, show Form.ofKind t.kind = .importClause from hk]
    rw [hslice] at hfound
    simp only [DraftContext.labelOf]
    exact congrArg₂ (fun p c => Label.importClause ⟨_, p, c⟩) hfound hconflict
  have hown := ctx.reports_of_silent (t := t) rfl hbuilt (List.forall_mem_singleton.2 rfl)
  rw [hown, ctx.ownReports_drafted, faults, hlabel]
  rfl

theorem reports_link {l : Stretch} (hl : l.In ctx.document.text) {keyword path : Word}
    (hw : wordsOf l = [keyword, path]) (h : isLink [keyword, path]) :
    (ctx.drafted (linkTree l.span keyword path)).reports = [placed ctx.document.text
      (l.span, "Module not found: " ++ String.ofList (Text.literalBody path.text))] := by
  have hmem : path ∈ words l.start l.text := by
    rw [← wordsOf, hw]
    simp
  have hpath := ((run_of_mem_words hmem).in hl).slice?
  simp only [isLink, Bool.and_eq_true, List.contains_iff_mem, List.mem_cons, List.not_mem_nil,
    or_false] at h
  rw [linkTree]
  split
  · exact reports_clause ctx rfl rfl hpath
  · next hne =>
    let clause := rule "extendsOrAmendsClause" l.span (linkParts keyword path)
    let t := rule "moduleHeader" l.span [clause]
    have hkind : (importKind? "extendsOrAmendsClause" (linkParts keyword path)).isSome := by
      rcases h.2.resolve_left hne with hk | hk
      · rw [linkParts, hk]
        rfl
      · rw [linkParts, hk]
        rfl
    have hbuilt : (Form.moduleHeader.built t).Perm [clause] := .refl _
    have hreports := ctx.reports_drafted (t := t) rfl rfl hbuilt (List.pairwise_singleton _ _)
    rw [hreports, List.flatMap_singleton, reports_clause ctx rfl hkind hpath]
    rfl

end Outline

end ModuleLens
