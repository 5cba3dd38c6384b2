import ModuleLens.Proofs.Node.Followed
import ModuleLens.Proofs.Outline.Members

/-! Imports of outlines.  An outline has an import on a line of its own, and nothing else that a
scan would look for; so a scan of its tree finds just the imports that are followed. -/

namespace ModuleLens

namespace Outline

open SyntaxTree

variable {text : Text} (scale : Scale text)

theorem importEdge?_nil (head : SyntaxHead) : importEdge? scale head [] = none := by
  rw [importEdge?]
  split
  · cases importKind? head.kind [] <;> rfl
  · rfl

theorem scanBy_nil (head : SyntaxHead) : (node head []).scanBy scale = [] := by
  simp [scanBy, importEdge?_nil, scanAllBy]

theorem scanBy_rule {kind : String} (h : isImportKind kind = false) (span : Span)
    (ts : List SyntaxTree) : (rule kind span ts).scanBy scale = ts.flatMap (scanBy scale) :=
  scanBy_of_none scale rfl rfl (importEdge?_of_kind scale h ts)

theorem scan_atom {w : Word} {t : SyntaxTree} (h : atom w = some t) : t.scanBy scale = [] := by
  rw [atom] at h
  split_ifs at h
  all_goals
    cases h
    rfl

theorem scan_expression {ws : List Word} {t : SyntaxTree} (h : expression ws = some t) :
    t.scanBy scale = [] := by
  have hsum (span : Span) {l r : Word} {left right : SyntaxTree} (hl : atom l = some left)
      (hr : atom r = some right) (signs : List SyntaxTree)
      (hs : signs.flatMap (scanBy scale) = []) :
      (rule "binaryExpr" span (left :: (signs ++ [right]))).scanBy scale = [] := by
    rw [scanBy_rule scale (by decide), List.flatMap_cons, List.flatMap_append, hs,
      List.flatMap_singleton, scan_atom scale hl, scan_atom scale hr]
    rfl
  unfold expression at h
  split at h
  · exact scan_atom scale h
  · obtain ⟨left, hl, h⟩ := Option.bind_eq_some_iff.1 h
    obtain ⟨right, hr, h⟩ := Option.bind_eq_some_iff.1 h
    cases h
    exact hsum _ hl hr [] rfl
  · dsimp only at h
    split at h
    · obtain ⟨left, hl, h⟩ := Option.bind_eq_some_iff.1 h
      obtain ⟨right, hr, h⟩ := Option.bind_eq_some_iff.1 h
      cases h
      refine hsum _ hl hr [_] ?_
      rw [List.flatMap_singleton]
      exact scanBy_nil scale _
    · cases h
  · cases h

theorem scan_typeClause {colon : Nat} {t : Text} {tree : SyntaxTree}
    (h : typeClause colon t = some tree) : tree.scanBy scale = [] := by
  unfold typeClause at h
  split at h
  · cases h
    rfl
  · split at h
    · cases h
      rfl
    · cases h
  · cases h

theorem scan_assignment {equals : Nat} {t : Text} {ts : List SyntaxTree}
    (h : assignment equals t = some ts) : ts.flatMap (scanBy scale) = [] := by
  have hmark : (SyntaxTree.token "=" ⟨equals, equals + 1⟩).scanBy scale = [] := scanBy_nil scale _
  unfold assignment at h
  split at h
  · cases h
    rw [List.flatMap_singleton, hmark]
  · obtain ⟨value, hv, rfl⟩ := Option.map_eq_some_iff.1 h
    rw [List.flatMap_cons, hmark, List.flatMap_singleton, scan_expression scale hv]
    rfl

theorem property_eq {offset : Nat} {line : Text} {t : SyntaxTree}
    (h : property offset line = some t) :
    ∃ span ts, t = rule "classProperty" span ts ∧ ts.flatMap (scanBy scale) = [] := by
  let l : Stretch := ⟨offset, line⟩
  obtain ⟨name, types, values, hn, ht, hv, rfl⟩ := property_eq_some (l := l).1 h
  obtain ⟨w, _, _, rfl⟩ := nameLeaf_eq_some.1 hn
  have hname : (leaf "identifier" w.span).scanBy scale = [] := scanBy_nil scale _
  have htypes : types.flatMap (scanBy scale) = [] := by
    rw [annotations] at ht
    split at ht
    · cases ht
      rfl
    · obtain ⟨tree, htree, rfl⟩ := Option.map_eq_some_iff.1 ht
      rw [List.flatMap_singleton, scan_typeClause scale htree]
  have hvalues : values.flatMap (scanBy scale) = [] := by
    rw [assigned] at hv
    split at hv
    · cases hv
      rfl
    · exact scan_assignment scale hv
  refine ⟨_, _, rfl, ?_⟩
  rw [List.flatMap_cons, List.flatMap_append, hname, htypes, hvalues]
  rfl

/-- A part in which a scan finds just what is followed. -/
structure Tidy (t : SyntaxTree) : Prop where
  scan : t.scanBy scale = t.followed scale
  seat : t.isRule ∨ t.isStray

theorem tidy_property {offset : Nat} {line : Text} {t : SyntaxTree}
    (h : property offset line = some t) : Tidy scale t := by
  obtain ⟨span, ts, rfl, hts⟩ := property_eq scale h
  refine ⟨?_, .inl rfl⟩
  have hsub := followed_subperm scale (t := rule "classProperty" span ts) rfl
  rw [scanBy_rule scale (by decide), hts, List.subperm_nil] at hsub
  rw [scanBy_rule scale (by decide), hts, hsub]

theorem scan_header (span : Span) {clause : SyntaxTree} (hr : clause.isRule)
    (h : clause.scanBy scale = clause.followed scale) :
    (rule "moduleHeader" span [clause]).scanBy scale =
      (rule "moduleHeader" span [clause]).followed scale := by
  have hw : clause.head.wrong = false := by
    simp only [isRule, Bool.and_eq_true, Bool.not_eq_true'] at hr
    exact hr.2.1
  have hrules : (rule "moduleHeader" span [clause]).rules = [clause] := by
    simp [rules, rule, SyntaxTree.children, hr]
  have hstrays : (rule "moduleHeader" span [clause]).strays = [] := by
    simp [strays, rule, SyntaxTree.children, isStray, hw]
  have hbuilt : Form.moduleHeader.built (rule "moduleHeader" span [clause]) = [clause] := by
    rw [Form.built, DraftContext.flatMap_admits (by decide) (by decide), hrules, hstrays]
    rfl
  have hfollowed := followed_of_right scale (t := rule "moduleHeader" span [clause]) rfl
  rw [importEdge?_of_kind scale (show isImportKind "moduleHeader" = false by decide)] at hfollowed
  change _ = Option.toList none ++ (Form.moduleHeader.built _).flatMap (followed scale) at hfollowed
  rw [scanBy_rule scale (by decide), hfollowed, hbuilt, List.flatMap_singleton,
    List.flatMap_singleton, h]
  rfl

theorem member_tidy (offset : Nat) (line : Text) : Tidy scale (member wrongLine offset line) := by
  have horElse : Tidy scale ((property offset line).getD
      (wrongLine ⟨offset, offset + line.byteLength⟩)) := by
    cases hp : property offset line with
    | some t => exact tidy_property scale hp
    | none => exact ⟨by rw [followed_of_wrong scale rfl]; rfl, .inr rfl⟩
  unfold member
  dsimp only
  split
  · next keyword path _ =>
    split
    · next h =>
      rw [beq_iff_eq.1 (Bool.and_eq_true_iff.1 h).2]
      exact ⟨scanBy_clause scale rfl rfl rfl, .inl rfl⟩
    · split
      · next h =>
        refine ⟨scan_header scale _ rfl ?_, .inl rfl⟩
        rcases Bool.or_eq_true_iff.1 (Bool.and_eq_true_iff.1 h).2 with hw | hw
        · rw [beq_iff_eq.1 hw]
          exact scanBy_clause scale rfl rfl rfl
        · rw [beq_iff_eq.1 hw]
          exact scanBy_clause scale rfl rfl rfl
      · exact horElse
  · exact horElse

theorem members_tidy (offset : Nat) (lines : List Text) :
    ∀ t ∈ members wrongLine offset lines, Tidy scale t := by
  induction lines generalizing offset with
  | nil => nofun
  | cons line lines ih =>
    rw [members]
    split
    · exact ih _
    · exact List.forall_mem_cons.2 ⟨member_tidy scale _ _, ih _⟩

/-- In the tree of a text a scan finds just what is followed. -/
theorem followedInModule_parse (t : Text) :
    ((parse t).followedInModule scale).Perm ((parse t).scanBy scale) := by
  let ms := members wrongLine 0 t.lines
  have htidy := members_tidy scale 0 t.lines
  have hparts : ((parse t).rules ++ (parse t).strays).Perm ms :=
    rules_append_strays_perm fun m hm => (htidy m hm).seat
  have hscan : (parse t).scanBy scale = ms.flatMap (followed scale) := by
    rw [parse, scanBy_rule scale (by decide)]
    exact List.flatMap_congr fun m hm => (htidy m hm).scan
  rw [hscan]
  exact hparts.flatMap_right (followed scale)

end Outline

end ModuleLens
