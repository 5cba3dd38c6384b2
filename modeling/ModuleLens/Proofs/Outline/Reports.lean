import ModuleLens.Proofs.Outline
import ModuleLens.Proofs.Outline.Pieces

/-! Reports of outlines.  What is reported of a module that is read off a text, and whose imports
all fail, is what its lines ask for, line by line. -/

namespace ModuleLens

namespace Outline

open Node SyntaxTree

variable (ctx : DraftContext)

/-- The tree of a property: its name, its type clause, its equals sign and its value. -/
def propertyTree (span name : Span) (type : Option SyntaxTree) (mark : Option Span)
    (value : Option SyntaxTree) : SyntaxTree :=
  rule "classProperty" span (leaf "identifier" name ::
    (type.toList ++ ((mark.map (token "=")).toList ++ value.toList)))

section

variable (span name : Span) {type value : Option SyntaxTree} (mark : Option Span)
  (htype : ∀ c ∈ type, Typed c) (hvalue : ∀ c ∈ value, Valued c)

include htype hvalue

theorem rules_propertyTree : (propertyTree span name type mark value).rules =
    leaf "identifier" name :: (type.toList ++ value.toList) := by
  have hname : (leaf "identifier" name).isRule := rfl
  have htypes : type.toList.filter isRule = type.toList :=
    List.filter_eq_self.2 fun c hc => (htype c (Option.mem_toList.1 hc)).rule
  have hvalues : value.toList.filter isRule = value.toList :=
    List.filter_eq_self.2 fun c hc => (hvalue c (Option.mem_toList.1 hc)).rule
  have hmarks : (mark.map (token "=")).toList.filter isRule = [] := by
    cases mark <;> rfl
  change (leaf "identifier" name :: (type.toList ++ ((mark.map (token "=")).toList ++
    value.toList))).filter isRule = _
  rw [List.filter_cons_of_pos hname, List.filter_append, List.filter_append, htypes, hvalues,
    hmarks, List.nil_append]

theorem strays_propertyTree : (propertyTree span name type mark value).strays = [] := by
  refine List.filter_eq_nil_iff.2 fun c hc => Bool.eq_false_iff.1 ?_
  simp only [propertyTree, rule, SyntaxTree.children, List.mem_cons, List.mem_append,
    Option.mem_toList, Option.map_eq_some_iff] at hc
  rcases hc with rfl | hc | ⟨s, _, rfl⟩ | hc
  · rfl
  · exact (isStray_of_isRule (htype c hc).rule).1
  · rfl
  · exact (isStray_of_isRule (hvalue c hc).rule).1

theorem built_propertyTree : (Form.classProperty.built (propertyTree span name type mark value)) =
    value.toList ++ (leaf "identifier" name :: type.toList) := by
  rw [Form.built, DraftContext.flatMap_admits (by decide) (by decide),
    rules_propertyTree span name mark htype hvalue,
    strays_propertyTree span name mark htype hvalue]
  have hn : (leaf "identifier" name).kind = "identifier" := rfl
  have hi : isExpressionKind "identifier" = false := rfl
  have ht : isExpressionKind "typeAnnotation" = false := rfl
  have hc (c : SyntaxTree) (h : c ∈ type) : c.kind = "typeAnnotation" := (htype c h).kind
  have hv (v : SyntaxTree) (h : v ∈ value) : isExpressionKind v.kind ∧ v.kind ≠ "objectBody" :=
    ⟨(hvalue v h).value, (hvalue v h).kind_ne.1⟩
  clear htype hvalue
  cases type <;> cases value <;>
    simp_all [Form.seats, Form.isLeaf, Seat.seated, Seat.taken, Seat.left, Seat.every,
      Seat.expression, Seat.first]

theorem hasMark_propertyTree :
    (propertyTree span name type mark value).hasMark "=" = mark.isSome := by
  have htypes : type.toList.any (isMark "=") = false := List.any_eq_false.2 fun c hc =>
    Bool.eq_false_iff.1 (isMark_of_isRule (htype c (Option.mem_toList.1 hc)).rule "=")
  have hvalues : value.toList.any (isMark "=") = false := List.any_eq_false.2 fun c hc =>
    Bool.eq_false_iff.1 (isMark_of_isRule (hvalue c (Option.mem_toList.1 hc)).rule "=")
  change (leaf "identifier" name :: (type.toList ++ ((mark.map (token "=")).toList ++
    value.toList))).any (isMark "=") = _
  rw [List.any_cons, List.any_append, List.any_append, htypes, hvalues]
  cases mark <;> rfl

theorem any_rules_propertyTree :
    ((propertyTree span name type mark value).rules.any fun c =>
      ["typeAnnotation"].contains c.kind) = type.isSome ∧
    ((propertyTree span name type mark value).rules.any fun c => isExpressionKind c.kind) =
      value.isSome := by
  have hn : (leaf "identifier" name).kind = "identifier" := rfl
  have hi : isExpressionKind "identifier" = false := rfl
  have ht : isExpressionKind "typeAnnotation" = false := rfl
  have hc (c : SyntaxTree) (h : c ∈ type) : c.kind = "typeAnnotation" := (htype c h).kind
  have hv (v : SyntaxTree) (h : v ∈ value) :
      isExpressionKind v.kind ∧ v.kind ≠ "typeAnnotation" :=
    ⟨(hvalue v h).value, (hvalue v h).kind_ne.2⟩
  rw [rules_propertyTree span name mark htype hvalue]
  clear htype hvalue
  cases type <;> cases value <;> simp_all

theorem faults_propertyTree : (ctx.drafted (propertyTree span name type mark value)).faults =
    if type.isNone && value.isNone && mark.isNone then [.missingTypeOrValue]
    else problemIf (mark.isSome && value.isNone) .missingValue ++
      problemIf (value.isSome && mark.isNone) .missingEquals := by
  have hn : (leaf "identifier" name).kind ≠ "objectBody" :=
    (by decide : "identifier" ≠ "objectBody")
  have hbody : ∀ c ∈ (propertyTree span name type mark value).rules, c.kind ≠ "objectBody" := by
    rw [rules_propertyTree span name mark htype hvalue]
    intro c hc
    simp only [List.mem_cons, List.mem_append, Option.mem_toList] at hc
    rcases hc with rfl | hc | hc
    · exact hn
    · rw [(htype c hc).kind]
      decide
    · exact (hvalue c hc).kind_ne.1
  obtain ⟨htyped, hvalued⟩ := any_rules_propertyTree span name mark htype hvalue
  -- Without a body, the faults are told by three things: a type, a value and a mark.
  rw [ctx.faults_property rfl rfl hbody, htyped, hvalued,
    hasMark_propertyTree span name mark htype hvalue]
  simp only [Option.not_isSome]

theorem reports_propertyTree
    (hstarts : (leaf "identifier" name :: (type.toList ++ value.toList)).Pairwise fun a b =>
      (ctx.rangeOf a).bytes.start < (ctx.rangeOf b).bytes.start) :
    (ctx.drafted (propertyTree span name type mark value)).reports =
      (ctx.drafted (propertyTree span name type mark value)).ownReports ++
        (type.toList.flatMap (fun c => (ctx.drafted c).reports) ++
          value.toList.flatMap fun c => (ctx.drafted c).reports) := by
  let t := propertyTree span name type mark value
  have hbuilt : (Form.classProperty.built t).Perm
      (leaf "identifier" name :: (type.toList ++ value.toList)) := by
    rw [built_propertyTree span name mark htype hvalue, ← List.cons_append]
    exact List.perm_append_comm
  have hreports := ctx.reports_drafted (t := t) rfl rfl hbuilt hstarts
  rw [hreports, List.flatMap_cons, reports_leaf ctx rfl, List.nil_append, List.flatMap_append]

end

/-- Trees of a row of parts start one after the other, if all but the last one are not empty. -/
theorem starts_of_fits {text : Text} (hctx : ctx.document.text = text) {t : SyntaxTree}
    (h : t.Fits text) {ts : List SyntaxTree} {last : Option SyntaxTree}
    (hts : (ts ++ last.toList).Sublist t.children)
    (hfilled : ∀ c ∈ ts, c.span.start < c.span.stop) :
    (ts ++ last.toList).Pairwise fun a b =>
      (ctx.rangeOf a).bytes.start < (ctx.rangeOf b).bytes.start := by
  subst hctx
  have hstart {c : SyntaxTree} (hc : c ∈ t.children) :
      (ctx.rangeOf c).bytes.start = c.span.start := by
    have hmem : c ∈ t.subtrees := by
      rw [subtrees_eq]
      refine List.mem_cons_of_mem t (List.mem_flatMap.2 ⟨c, hc, ?_⟩)
      rw [subtrees_eq]
      exact List.mem_cons_self
    obtain ⟨hs, he⟩ := h.ends c hmem
    rw [DraftContext.rangeOf, Extent.ofSpan_of_boundary hs he (h.nested.encloses hc).2.1]
  have hchain : (ts ++ last.toList).Pairwise fun a b => a.span.stop ≤ b.span.start :=
    (List.pairwise_map.1 h.nested.holds.pairwise).sublist hts
  have hstep {a b : SyntaxTree} (ha : a ∈ ts) (hb : b ∈ ts ++ last.toList)
      (hab : a.span.stop ≤ b.span.start) :
      (ctx.rangeOf a).bytes.start < (ctx.rangeOf b).bytes.start := by
    rw [hstart (hts.subset (List.mem_append_left _ ha)), hstart (hts.subset hb)]
    exact Nat.lt_of_lt_of_le (hfilled a ha) hab
  obtain ⟨hinit, -, hcross⟩ := List.pairwise_append.1 hchain
  refine List.pairwise_append.2 ⟨?_, ?_, fun a ha b hb => ?_⟩
  · exact hinit.imp_of_mem fun ha hb hab => hstep ha (List.mem_append_left _ hb) hab
  · cases last
    · exact .nil
    · exact List.pairwise_singleton _ _
  · exact hstep ha (List.mem_append_right _ hb) (hcross a ha b hb)

variable {l : Stretch} {t : SyntaxTree}

theorem stop_of_unassigned {q : Stretch} (h : l.Tight) (hq : after? '=' l = some q)
    (hw : wordsOf q = []) : (before '=' l).span.stop + 1 = l.span.stop := by
  obtain ⟨hstart, hstop⟩ := after_span hq
  have hempty : q.text = [] := by
    by_contra hne
    obtain ⟨w, hlast, _⟩ := getLast?_words (tight_after h hq hne)
    rw [← wordsOf, hw] at hlast
    cases hlast
  have hspan : q.span.stop = q.start := by
    rw [Stretch.span, hempty]
    rfl
  rw [← hstop, hspan, hstart]
  rfl

theorem reports_annotations {types : List SyntaxTree} (h : annotations l = some types) :
    ∃ type : Option SyntaxTree, types = type.toList ∧ (∀ c ∈ type, Typed c) ∧
      type.isNone = (after? ':' l).isNone ∧
      type.toList.flatMap (fun c => (ctx.drafted c).reports) =
        if (after? ':' l).any fun q => (wordsOf q).isEmpty then
          [placed ctx.document.text
            (⟨(before ':' l).span.stop, (before ':' l).span.stop + 1⟩, "Provide type identifier")]
        else [] := by
  rw [annotations] at h
  cases hq : after? ':' l with
  | none =>
    rw [hq] at h
    cases h
    exact ⟨none, rfl, fun c hc => absurd hc (Option.not_mem_none c), rfl, rfl⟩
  | some q =>
    rw [hq] at h
    obtain ⟨c, hc, rfl⟩ := Option.map_eq_some_iff.1 h
    obtain ⟨htyped, hreports⟩ := reports_typeClause ctx (after_span hq).1 hc
    refine ⟨some c, rfl, fun d hd => Option.some.inj hd ▸ htyped, rfl, ?_⟩
    rw [Option.toList_some, List.flatMap_singleton, hreports]
    rfl

theorem reports_assigned {values : List SyntaxTree} (h : assigned l = some values) :
    ∃ (mark : Option Span) (value : Option SyntaxTree),
      values = (mark.map (token "=")).toList ++ value.toList ∧ (∀ c ∈ value, Valued c) ∧
      mark = (after? '=' l).map (fun _ =>
        ⟨(before '=' l).span.stop, (before '=' l).span.stop + 1⟩) ∧
      value.isNone = (after? '=' l).all (fun q => (wordsOf q).isEmpty) ∧
      value.toList.flatMap (fun c => (ctx.drafted c).reports) =
        (requiredOperator (((after? '=' l).map wordsOf).getD [])).map
          (placed ctx.document.text) := by
  rw [assigned] at h
  cases hq : after? '=' l with
  | none =>
    rw [hq] at h
    cases h
    exact ⟨none, none, rfl, fun c hc => absurd hc (Option.not_mem_none c), rfl, rfl, rfl⟩
  | some q =>
    simp only [hq, assignment] at h
    have hwords : words ((before '=' l).span.stop + 1) q.text = wordsOf q := by
      rw [wordsOf, (after_span hq).1]
      rfl
    rw [hwords] at h
    cases hw : wordsOf q with
    | nil =>
      rw [hw] at h
      cases h
      refine ⟨some _, none, rfl, fun c hc => absurd hc (Option.not_mem_none c), rfl, ?_, ?_⟩
      · simp [hw]
      · simp [hw, requiredOperator]
    | cons v ws =>
      rw [hw] at h
      obtain ⟨c, hc, rfl⟩ := Option.map_eq_some_iff.1 h
      obtain ⟨hvalued, hreports⟩ := reports_expression ctx hc
      refine ⟨some _, some c, rfl, fun d hd => Option.some.inj hd ▸ hvalued, rfl, ?_, ?_⟩
      · simp [hw]
      · simp [hw, hreports]

/-- A property with nothing after its name, or nothing after its equals sign, covers its line. -/
theorem span_property (htight : l.Tight) (h : property l.start l.text = some t)
    (hbare : after? ':' (before '=' l) = none ∧ after? '=' l = none ∨
      ∃ q, after? '=' l = some q ∧ wordsOf q = []) : t.span = l.span := by
  obtain ⟨name, types, values, hn, ht, hv, rfl⟩ := property_eq_some.1 h
  rcases hbare with ⟨hcolon, hequals⟩ | ⟨q, hq, hw⟩
  · obtain ⟨w, hw, _, rfl⟩ := nameLeaf_eq_some.1 hn
    obtain ⟨v, hlast, hstop⟩ := getLast?_words htight
    rw [before_of_unmarked hcolon, before_of_unmarked hequals] at hw
    rw [hw] at hlast
    cases hlast
    rw [annotations, hcolon] at ht
    rw [assigned, hequals] at hv
    cases ht
    cases hv
    exact congrArg (Span.mk l.start) hstop
  · have hstop := stop_of_unassigned htight hq hw
    have hwords : words ((before '=' l).span.stop + 1) q.text = [] := by
      rw [← hw, wordsOf, (after_span hq).1]
      rfl
    simp only [assigned, hq, assignment, hwords] at hv
    cases hv
    rw [rule, SyntaxTree.span, SyntaxTree.head, List.getLast?_append]
    exact congrArg (Span.mk l.start) hstop

theorem faults_required {text : Text} {range : Extent}
    (h : after? ':' (before '=' l) = none ∧ after? '=' l = none ∨
      (∃ q, after? '=' l = some q ∧ wordsOf q = []) → range = Extent.ofSpan text l.span) :
    ((if (after? ':' (before '=' l)).isNone &&
          ((after? '=' l).all fun q => (wordsOf q).isEmpty) && (after? '=' l).isNone then
        [Problem.missingTypeOrValue]
      else problemIf ((after? '=' l).isSome && (after? '=' l).all fun q => (wordsOf q).isEmpty)
          .missingValue ++
        problemIf ((!(after? '=' l).all fun q => (wordsOf q).isEmpty) && (after? '=' l).isNone)
          .missingEquals).map fun p => (range, p.message)) =
      (requiredWhole l).map (placed text) := by
  rw [requiredWhole]
  cases hq : after? '=' l with
  | none =>
    cases hc : after? ':' (before '=' l) with
    | none =>
      rw [h (.inl ⟨hc, hq⟩)]
      rfl
    | some c => rfl
  | some q =>
    cases hempty : (wordsOf q).isEmpty with
    | true =>
      rw [h (.inr ⟨q, hq, List.isEmpty_iff.1 hempty⟩)]
      cases after? ':' (before '=' l) <;> simp only [Option.all_some, hempty] <;> rfl
    | false => cases after? ':' (before '=' l) <;> simp only [Option.all_some, hempty] <;> rfl

theorem reports_property (hl : l.In ctx.document.text) (htight : l.Tight)
    (h : property l.start l.text = some t) :
    (ctx.drafted t).reports = (requiredProperty l).map (placed ctx.document.text) ∧
      t.span.start < t.span.stop := by
  have hspan := span_property htight h
  obtain ⟨hfits, _⟩ := (property_row hl h).2.2.single
  obtain ⟨_, types, values, hn, ht, hv, rfl⟩ := property_eq_some.1 h
  obtain ⟨w, hw, _, rfl⟩ := nameLeaf_eq_some.1 hn
  obtain ⟨type, rfl, htyped, hcolon, htypes⟩ := reports_annotations ctx ht
  obtain ⟨mark, value, rfl, hvalued, hmark, hnone, hvalues⟩ := reports_assigned ctx hv
  let name := leaf "identifier" w.span
  set span : Span := ⟨l.start, _⟩
  let t := propertyTree span w.span type mark value
  have hword : w.span.start < w.span.stop := span_lt_of_mem_words (hw ▸ List.mem_singleton_self w)
  have hsub : ((name :: type.toList) ++ value.toList).Sublist t.children :=
    ((List.Sublist.refl _).append (List.sublist_append_right _ _)).cons_cons name
  -- The value comes last, so it is in its place even if it were empty.
  have hfilled : ∀ c ∈ name :: type.toList, c.span.start < c.span.stop := by
    refine List.forall_mem_cons.2 ⟨hword, fun c hc => ?_⟩
    exact (htyped c (Option.mem_toList.1 hc)).filled
  have hstarts := starts_of_fits ctx rfl hfits hsub hfilled
  have hin : t.span.Encloses name.span := hfits.nested.encloses List.mem_cons_self
  refine ⟨?_, Nat.lt_of_le_of_lt hin.1 (Nat.lt_of_lt_of_le hword hin.2.2)⟩
  have hreports := reports_propertyTree ctx span w.span mark htyped hvalued hstarts
  have hfaults := faults_propertyTree ctx span w.span mark htyped hvalued
  have hwhole : (ctx.drafted t).ownReports =
      (requiredWhole l).map (placed ctx.document.text) := by
    have hsome : value.isSome = !value.isNone := by cases value <;> rfl
    have hequals : mark.isSome = (after? '=' l).isSome := by rw [hmark, Option.isSome_map]
    have hunequal : mark.isNone = (after? '=' l).isNone := by rw [hmark, Option.isNone_map]
    rw [ctx.ownReports_drafted, hfaults, hsome, hcolon, hnone, hequals, hunequal]
    refine faults_required fun hbare => ?_
    rw [DraftContext.rangeOf]
    exact congrArg _ (hspan hbare)
  rw [requiredProperty, List.map_append, List.map_append, ← hwhole, ← hvalues, List.append_assoc]
  refine hreports.trans (congrArg _ ?_)
  rw [htypes]
  split <;> rfl

theorem reports_wrongLine (span : Span) : (ctx.drafted (wrongLine span)).reports =
    [placed ctx.document.text (span, "Unexpected identifier")] := by
  have hchildren : (ctx.drafted (wrongLine span)).children = [] := by
    rw [ctx.drafted_of_wrong rfl]
    rfl
  have hfaults : (ctx.drafted (wrongLine span)).faults = [.unexpected] := by
    rw [ctx.drafted_of_wrong rfl]
    rfl
  rw [reports_eq, hchildren, ctx.ownReports_drafted, hfaults]
  rfl

theorem reports_member (hl : l.In ctx.document.text) (htight : l.Tight) :
    (ctx.drafted (member wrongLine l.start l.text)).reports =
        (required l).map (placed ctx.document.text) ∧
      (member wrongLine l.start l.text).span.start <
        (member wrongLine l.start l.text).span.stop := by
  have hfilled : l.span.start < l.span.stop :=
    Nat.lt_add_of_pos_right (Nat.pos_of_ne_zero fun h => htight.1 (Text.byteLength_eq_zero.1 h))
  cases hlink : isLink (words l.start l.text) with
  | true =>
    obtain ⟨keyword, path, hw⟩ := exists_of_isLink hlink
    rw [hw] at hlink
    have hspan : (linkTree l.span keyword path).span = l.span := by
      rw [linkTree]
      split <;> rfl
    rw [member_link _ hw hlink, reports_link ctx hl hw hlink, hspan, required, wordsOf, hw,
      linkPath?, if_pos hlink]
    exact ⟨rfl, hfilled⟩
  | false =>
    rw [member_of_not_link _ hlink, required, wordsOf, linkPath?_of_not_link hlink]
    have hsome := isSome_property l
    cases hp : property l.start l.text with
    | some t =>
      rw [hp] at hsome
      obtain ⟨hreports, ht⟩ := reports_property ctx hl htight hp
      rw [← hsome]
      exact ⟨hreports, ht⟩
    | none =>
      rw [hp] at hsome
      rw [← hsome]
      exact ⟨reports_wrongLine ctx l.span, hfilled⟩

/-- The draft of an outline reports what its lines ask for, line by line. -/
theorem reports_parse : (ctx.draftModule (parse ctx.document.text)).reports =
    ((Stretch.lines ctx.document.text).filter fun l => !l.isBlank).flatMap fun l =>
      (required l.trimmed).map (placed ctx.document.text) := by
  let ls := (Stretch.lines ctx.document.text).filter fun l => !l.isBlank
  let f : Stretch → SyntaxTree := fun l => member wrongLine l.trimmed.start l.trimmed.text
  let root := parse ctx.document.text
  have hchildren : root.children = ls.map f := members_eq wrongLine 0 ctx.document.text.lines
  have hmember {l : Stretch} (hl : l ∈ ls) : (ctx.drafted (f l)).reports =
      (required l.trimmed).map (placed ctx.document.text) ∧
        (f l).span.start < (f l).span.stop := by
    obtain ⟨hmem, hblank⟩ := List.mem_filter.1 hl
    have hin := l.padded_trimmed.in ((Stretch.lines_in _).1 l hmem)
    exact reports_member ctx hin (Stretch.tight_trimmed (by simpa using hblank))
  obtain ⟨cs, hmodule, hcs⟩ := ctx.exists_draftModule root
  -- A header is drafted before the other members, so their order is that of the lines only once
  -- the drafts are sorted.
  have hseats : (root.rules ++ root.strays).Perm (ls.map f) := by
    rw [← hchildren]
    exact rules_append_strays_perm fun m hm => (members_tidy ctx.scale 0 _ m hm).seat
  have hperm : (cs.map bare).Perm ((ls.map f).map ctx.drafted) :=
    hcs.trans (.trans (.of_eq (List.append_nil _)) (hseats.map ctx.drafted))
  have hsub : (ls.map f ++ (none : Option SyntaxTree).toList).Sublist root.children := by
    rw [hchildren, Option.toList_none, List.append_nil]
  have hstarts := starts_of_fits ctx rfl (parse_fits ctx.document.text).1 hsub
    (List.forall_mem_map.2 fun l hl => (hmember hl).2)
  rw [Option.toList_none, List.append_nil] at hstarts
  rw [hmodule, ctx.reports_make hperm hstarts, List.flatMap_map]
  refine (List.nil_append _).trans ?_
  exact List.flatMap_congr fun l hl => (hmember hl).1

theorem extent_of_in {text : Text} {q : Stretch} (h : q.In text) :
    Extent.ofSpan text q.span = ⟨text.positionsAt q.span, q.span⟩ :=
  Extent.ofSpan_of_boundary h.start_boundary h.stop_boundary (Nat.le_add_right _ _)

theorem extent_requiredOperator {text : Text} {q : Stretch} (h : q.In text) {r : Span × String}
    (hr : r ∈ requiredOperator (wordsOf q)) :
    Extent.ofSpan text r.1 = ⟨text.positionsAt r.1, r.1⟩ := by
  have hholds := words_holds q.start q.text
  have hword {w : Word} (hw : w ∈ wordsOf q) : Stretch.In text ⟨w.start, w.text⟩ :=
    (run_of_mem_words hw).in h
  rw [← wordsOf] at hholds
  generalize wordsOf q = ws at hr hholds hword
  unfold requiredOperator at hr
  split at hr
  · next a b =>
    rw [List.mem_singleton.1 hr]
    have hab : a.span.stop ≤ b.span.start := (List.isChain_cons_cons.1 hholds.2).1
    have ha : a.span.start ≤ a.span.stop := Nat.le_add_right _ _
    have hb : b.span.start ≤ b.span.stop := Nat.le_add_right _ _
    have hlast : b ∈ [a, b] := List.mem_cons_of_mem a List.mem_cons_self
    exact Extent.ofSpan_of_boundary (hword List.mem_cons_self).start_boundary
      (hword hlast).stop_boundary (Nat.le_trans ha (Nat.le_trans hab hb))
  · cases hr

/-- What a line asks for is asked for where scalars start and end. -/
theorem extent_required {text : Text} (hl : l.In text) {r : Span × String}
    (hr : r ∈ required l) : Extent.ofSpan text r.1 = ⟨text.positionsAt r.1, r.1⟩ := by
  have hone {c : Prop} [Decidable c] {s : Span × String}
      (hr : r ∈ if c then [s] else []) : c ∧ r = s := by
    split at hr
    · next hc => exact ⟨hc, List.mem_singleton.1 hr⟩
    · cases hr
  rw [required] at hr
  split at hr
  · rw [List.mem_singleton.1 hr]
    exact extent_of_in hl
  · split at hr
    · rw [requiredProperty, List.mem_append, List.mem_append] at hr
      rcases hr with (hr | hr) | hr
      · rw [requiredWhole] at hr
        split at hr
        all_goals
          rw [(hone hr).2]
          exact extent_of_in hl
      · -- the type is asked for where the colon stands
        obtain ⟨hc, rfl⟩ := hone hr
        have hleft := in_before (c := '=') hl
        cases hq : after? ':' (before '=' l) with
        | none =>
          rw [hq] at hc
          cases hc
        | some q =>
          have hstart : q.start = (before ':' (before '=' l)).span.stop + 1 := (after_span hq).1
          refine Extent.ofSpan_of_boundary (in_before hleft).stop_boundary ?_ (Nat.le_succ _)
          rw [← hstart]
          exact (in_after hleft hq).start_boundary
      · cases hq : after? '=' l with
        | none =>
          rw [hq] at hr
          cases hr
        | some q =>
          rw [hq] at hr
          exact extent_requiredOperator (in_after hl hq) hr
    · rw [List.mem_singleton.1 hr]
      exact extent_of_in hl

end Outline

open Node Outline

/-- What is reported of a module that is read off a text, and none of whose imports are found, is
what the lines of the text ask for, one after the other. -/
theorem outline_reports (build depth : Nat) (document : Document) :
    ((linkModule (draftModule build (parse document.text) document depth)
        fun _ => .notFound).report?.getD []).map (fun d => (d.range, d.message)) =
      ((Stretch.lines document.text).filter fun l => !l.isBlank).flatMap fun l =>
        (required l.trimmed).map fun (span, message) =>
          ((⟨document.text.positionsAt span, span⟩ : Extent), message) := by
  let ctx : DraftContext := ⟨document, depth, .of document.text⟩
  rw [report?_getD, diagnostics_refused, reports_parse ctx]
  refine List.flatMap_congr fun l hl => List.map_congr_left fun r hr => ?_
  have hin := l.padded_trimmed.in ((Stretch.lines_in _).1 l (List.mem_filter.1 hl).1)
  exact congrArg (·, r.2) (extent_required hin hr)

end ModuleLens
