import ModuleLens.Proofs.Outline.Members
import ModuleLens.Proofs.Sketch

/-! Trees of outlines fit their text.  Every line that is not blank has one member, which lies in
it; what a member has for leaves are words of the line or of a part of it, as the text shows
them. -/

namespace ModuleLens

namespace Outline

open SyntaxTree

/-- A span that a word of a stretch covers, as the text shows. -/
def Reads (text : Text) (l : Stretch) (s : Span) : Prop :=
  ∃ w, Run l w ∧ s = w.span ∧ text.slice? s.start s.stop = some w.text

variable {text : Text} {l m : Stretch} {w : Word} {t : SyntaxTree}

theorem Run.in (h : Run l w) (hl : l.In text) : Stretch.In text ⟨w.start, w.text⟩ := by
  obtain ⟨pre, post, ht, hs, _⟩ := h
  rw [hs]
  exact hl.sub ht

theorem reads_of_mem_words (hl : l.In text) (hw : w ∈ words l.start l.text) :
    Reads text l w.span := by
  have hr := run_of_mem_words hw
  exact ⟨w, hr, rfl, (hr.in hl).slice?⟩

theorem Reads.padded {s : Span} (h : Reads text l s) (hlm : l.Padded m) : Reads text m s := by
  obtain ⟨w, hr, hs, ht⟩ := h
  obtain ⟨lead, trail, hlead, htrail, hm, hstart⟩ := hlm
  have hh := hr.widen hlead htrail hstart
  rw [← hm] at hh
  exact ⟨w, hh, hs, ht⟩

theorem word_row (hl : l.In text) (hw : w ∈ words l.start l.text) {head : SyntaxHead}
    (hs : head.span = w.span) : Row text (Reads text l) w.span [.node head []] := by
  have hin := (run_of_mem_words hw).in hl
  exact .leaf hin.start_boundary hin.stop_boundary (Nat.le_add_right _ _) hs
    fun _ => reads_of_mem_words hl hw

theorem atom_row (hl : l.In text) (hw : w ∈ words l.start l.text) (h : atom w = some t) :
    Row text (Reads text l) w.span [t] := by
  have hleaf (kind : String) : Row text (Reads text l) w.span [leaf kind w.span] :=
    word_row hl hw rfl
  rw [atom] at h
  split_ifs at h
  all_goals cases h
  all_goals first
    | exact hleaf _
    | exact (hleaf _).branch rfl

theorem atoms_eq_some {a b : Word} {f : SyntaxTree → SyntaxTree → SyntaxTree}
    (h : ((atom a).bind fun left => (atom b).bind fun right => some (f left right)) = some t) :
    ∃ left right, atom a = some left ∧ atom b = some right ∧ t = f left right := by
  obtain ⟨left, ha, h⟩ := Option.bind_eq_some_iff.1 h
  obtain ⟨right, hb, h⟩ := Option.bind_eq_some_iff.1 h
  cases h
  exact ⟨left, right, ha, hb, rfl⟩

theorem expression_row (hl : l.In text) (h : expression (words l.start l.text) = some t) :
    Row text (Reads text l) l.span [t] := by
  have hholds := words_holds l.start l.text
  have hatom {w : Word} (hw : w ∈ words l.start l.text) {t : SyntaxTree} (ht : atom w = some t) :
      Row text (Reads text l) w.span [t] := atom_row hl hw ht
  have htoken {w : Word} (hw : w ∈ words l.start l.text) (kind : String) :
      Row text (Reads text l) w.span [token kind w.span] := word_row hl hw rfl
  have hwide {s : Span} (hs : l.span.Encloses s) (hr : Row text (Reads text l) s [t]) :
      Row text (Reads text l) l.span [t] :=
    hr.widen hl.start_boundary hl.stop_boundary hs.1 hs.2.2
  generalize words l.start l.text = ws at h hholds hatom htoken
  unfold expression at h
  split at h
  · next w => exact hwide (hholds.1 _ (by simp)) (hatom (by simp) h)
  · next a b =>
    obtain ⟨left, right, ha, hb, rfl⟩ := atoms_eq_some h
    have hab : a.span.stop ≤ b.span.start := (List.isChain_cons_cons.1 hholds.2).1
    have hrow := (hatom (by simp) ha).append (hatom (by simp) hb) hab
    have hin : l.span.Encloses ⟨a.span.start, b.span.stop⟩ :=
      ⟨(hholds.1 a.span (by simp)).1, hrow.ordered, (hholds.1 b.span (by simp)).2.2⟩
    exact hwide hin (hrow.branch rfl)
  · next a o b =>
    dsimp only at h
    split at h
    · obtain ⟨left, right, ha, hb, rfl⟩ := atoms_eq_some h
      obtain ⟨hao, hchain⟩ := List.isChain_cons_cons.1 hholds.2
      have hob : o.span.stop ≤ b.span.start := (List.isChain_cons_cons.1 hchain).1
      have hrow := (hatom (by simp) ha).append
        ((htoken (by simp) (String.ofList o.text)).append (hatom (by simp) hb) hob) hao
      have hin : l.span.Encloses ⟨a.span.start, b.span.stop⟩ :=
        ⟨(hholds.1 a.span (by simp)).1, hrow.ordered, (hholds.1 b.span (by simp)).2.2⟩
      exact hwide hin (hrow.branch rfl)
    · cases h
  · cases h

theorem mark_row {p : Span → Prop} {b : Nat} (hstart : text.Boundary b)
    (hstop : text.Boundary (b + 1)) (kind : String) :
    Row text p ⟨b, b + 1⟩ [token kind ⟨b, b + 1⟩] :=
  .leaf hstart hstop (Nat.le_succ b) rfl nofun

theorem typeClause_row {colon : Nat} (hc : text.Boundary colon) (hl : l.In text)
    (hs : l.start = colon + 1) (h : typeClause colon l.text = some t) :
    Row text (Reads text l) ⟨colon, l.span.stop⟩ [t] := by
  have hmark : Row text (Reads text l) ⟨colon, colon + 1⟩ [token ":" ⟨colon, colon + 1⟩] :=
    mark_row hc (hs ▸ hl.start_boundary) ":"
  have hstart : colon + 1 = l.span.start := hs.symm
  have hwords : words (colon + 1) l.text = words l.start l.text := by rw [hs]
  rw [typeClause, hwords] at h
  split at h
  · cases h
    refine (hmark.branch rfl).extend hl.stop_boundary ?_
    exact hstart ▸ Nat.le_add_right _ _
  · next w hw =>
    split at h
    · cases h
      have hmem : w ∈ words l.start l.text := hw ▸ List.mem_singleton_self w
      have hin := (words_holds l.start l.text).1 w.span (List.mem_map_of_mem hmem)
      have htype : Row text (Reads text l) w.span
          [rule "type" w.span [leaf "qualifiedIdentifier" w.span]] :=
        (word_row hl hmem rfl).branch rfl
      have hrow := hmark.append htype (hstart ▸ hin.1)
      exact (hrow.branch rfl).extend hl.stop_boundary hin.2.2
    · cases h
  · cases h

theorem assignment_row {equals : Nat} (hc : text.Boundary equals) (hl : l.In text)
    (hs : l.start = equals + 1) {ts : List SyntaxTree}
    (h : assignment equals l.text = some ts) :
    Row text (Reads text l) ⟨equals, l.span.stop⟩ ts := by
  have hmark : Row text (Reads text l) ⟨equals, equals + 1⟩ [token "=" ⟨equals, equals + 1⟩] :=
    mark_row hc (hs ▸ hl.start_boundary) "="
  have hstart : equals + 1 = l.span.start := hs.symm
  have hwords : words (equals + 1) l.text = words l.start l.text := by rw [hs]
  rw [assignment, hwords] at h
  split at h
  · cases h
    refine hmark.extend hl.stop_boundary ?_
    exact hstart ▸ Nat.le_add_right _ _
  · obtain ⟨value, hv, rfl⟩ := Option.map_eq_some_iff.1 h
    exact hmark.append (expression_row hl hv) (Nat.le_of_eq hstart)

/-- What is read before and after a mark makes one row. -/
theorem cut_row {p : Span → Prop} {c : Char} {ts us : List SyntaxTree} (hl : l.In text)
    (hts : Row text p (before c l).span ts) (hnone : after? c l = none → us = [])
    (hsome : ∀ q, after? c l = some q → Row text p ⟨(before c l).span.stop, q.span.stop⟩ us) :
    Row text p l.span (ts ++ us) := by
  obtain ⟨hstart, hstop⟩ := before_stop c l
  cases hq : after? c l with
  | none =>
    rw [hnone hq, List.append_nil]
    exact hts.widen hl.start_boundary hl.stop_boundary (Nat.le_of_eq hstart.symm) hstop
  | some q =>
    have hrow := hts.append (hsome q hq) (Nat.le_refl _)
    exact hrow.widen hl.start_boundary hl.stop_boundary (Nat.le_of_eq hstart.symm)
      (Nat.le_of_eq (after_span hq).2)

/-- A word of a part of a line. -/
def ReadsPart (text : Text) (l : Stretch) (s : Span) : Prop := ∃ q ∈ parts l, Reads text q s

theorem property_row (hl : l.In text) (h : property l.start l.text = some t) :
    t.kind = "classProperty" ∧ t.head.wrong = false ∧
      Row text (ReadsPart text l) l.span [t] := by
  obtain ⟨name, types, values, hn, ht, hv, rfl⟩ := property_eq_some.1 h
  refine ⟨rfl, rfl, ?_⟩
  have hpart {q : Stretch} (hq : q ∈ parts l) {s : Span} (hs : Reads text q s) :
      ReadsPart text l s := ⟨q, hq, hs⟩
  have hleft := in_before (c := '=') hl
  have hname : Row text (ReadsPart text l) (before ':' (before '=' l)).span [name] := by
    obtain ⟨w, hw, _, rfl⟩ := nameLeaf_eq_some.1 hn
    have hin := in_before (c := ':') hleft
    have hmem : w ∈ words (before ':' (before '=' l)).start (before ':' (before '=' l)).text :=
      hw ▸ List.mem_singleton_self w
    have hword := (words_holds _ _).1 w.span (List.mem_map_of_mem hmem)
    have hleaf : Row text (Reads text (before ':' (before '=' l))) w.span
        [leaf "identifier" w.span] := word_row hin hmem rfl
    have hrow := hleaf.widen hin.start_boundary hin.stop_boundary hword.1 hword.2.2
    exact hrow.imp fun s => hpart List.mem_cons_self
  -- The row grows from the left; each part that is there takes it on to the end of the line.
  have htypes : Row text (ReadsPart text l) (before '=' l).span ([name] ++ types) := by
    refine cut_row hleft hname (fun hq => ?_) fun q hq => ?_
    · rw [annotations, hq] at ht
      cases ht
      rfl
    · rw [annotations, hq] at ht
      obtain ⟨tree, htree, rfl⟩ := Option.map_eq_some_iff.1 ht
      have hrow := typeClause_row (in_before hleft).stop_boundary (in_after hleft hq)
        (after_span hq).1 htree
      exact hrow.imp fun s => hpart (by simp [parts, hq])
  have hvalues : Row text (ReadsPart text l) l.span ([name] ++ types ++ values) := by
    refine cut_row hl htypes (fun hq => ?_) fun q hq => ?_
    · rw [assigned, hq] at hv
      cases hv
      rfl
    · rw [assigned, hq] at hv
      have hrow := assignment_row hleft.stop_boundary (in_after hl hq) (after_span hq).1 hv
      exact hrow.imp fun s => hpart (by simp [parts, hq])
  let last := (types ++ values).getLast?.getD name
  have hlast : ([name] ++ types ++ values).getLast? = some last := by
    rw [List.append_assoc, List.singleton_append, List.getLast?_cons]
  have hin := hvalues.holds.1 last.span (List.mem_map_of_mem (List.mem_of_getLast? hlast))
  exact ((hvalues.tighten hlast).branch rfl).extend hl.stop_boundary hin.2.2

theorem link_row (hl : l.In text) {keyword path : Word}
    (hw : words l.start l.text = [keyword, path]) :
    Row text (Reads text l) l.span [linkTree l.span keyword path] := by
  have hholds := words_holds l.start l.text
  have hk : keyword ∈ words l.start l.text := by simp [hw]
  have hp : path ∈ words l.start l.text := by simp [hw]
  have hkin := hholds.1 keyword.span (List.mem_map_of_mem hk)
  have hpin := hholds.1 path.span (List.mem_map_of_mem hp)
  have horder : keyword.span.stop ≤ path.span.start := by
    rw [hw] at hholds
    exact (List.isChain_cons_cons.1 hholds.2).1
  have hkeyword : Row text (Reads text l) keyword.span
      [token (String.ofList keyword.text) keyword.span] := word_row hl hk rfl
  have hpath : Row text (Reads text l) path.span [leaf "stringConstant" path.span] :=
    word_row hl hp rfl
  have hrow : Row text (Reads text l) l.span (linkParts keyword path) :=
    (hkeyword.append hpath horder).widen hl.start_boundary hl.stop_boundary hkin.1 hpin.2.2
  rw [linkTree]
  split
  · exact hrow.branch rfl
  · have hclause : Row text (Reads text l) l.span
        [rule "extendsOrAmendsClause" l.span (linkParts keyword path)] := hrow.branch rfl
    exact hclause.branch rfl

/-- The member of a line: a wrong one covers the trimmed line; the leaves of others are words, those
of an import or a header of the line, and those of a property of its parts. -/
structure MemberOf (text : Text) (l : Stretch) (t : SyntaxTree) : Prop where
  line : text.slice? l.span.start l.span.stop = some l.text
  inside : l.span.Encloses t.span
  form : t.head.wrong ∧ t.span = l.trimmed.span ∨ t.head.wrong = false ∧
    ((t.kind = "importClause" ∨ t.kind = "moduleHeader") ∧ t.Leaves (Reads text l) ∨
      t.kind = "classProperty" ∧ t.Leaves (ReadsPart text l))

theorem kind_linkTree (span : Span) (keyword path : Word) :
    ((linkTree span keyword path).kind = "importClause" ∨
      (linkTree span keyword path).kind = "moduleHeader") ∧
      (linkTree span keyword path).head.wrong = false := by
  rw [linkTree]
  split
  · exact ⟨.inl rfl, rfl⟩
  · exact ⟨.inr rfl, rfl⟩

theorem member_fits (hl : l.In text) :
    (member wrongLine l.trimmed.start l.trimmed.text).Fits text ∧
      MemberOf text l (member wrongLine l.trimmed.start l.trimmed.text) := by
  have hpad := l.padded_trimmed
  have hin := hpad.in hl
  cases hlink : isLink (words l.trimmed.start l.trimmed.text) with
  | true =>
    obtain ⟨keyword, path, hw⟩ := exists_of_isLink hlink
    rw [member_link _ hw (hw ▸ hlink)]
    obtain ⟨hfits, hinside, hleaves⟩ := (link_row hin hw).single
    obtain ⟨hkind, hright⟩ := kind_linkTree l.trimmed.span keyword path
    refine ⟨hfits, hl.slice?, hpad.encloses.trans hinside, .inr ⟨hright, .inl ⟨hkind, ?_⟩⟩⟩
    exact fun s hs hn hc => (hleaves s hs hn hc).padded hpad
  | false =>
    rw [member_of_not_link _ hlink]
    cases hp : property l.trimmed.start l.trimmed.text with
    | some t =>
      obtain ⟨hkind, hright, hrow⟩ := property_row hin hp
      obtain ⟨hfits, hinside, hleaves⟩ := hrow.single
      refine ⟨hfits, hl.slice?, hpad.encloses.trans hinside, .inr ⟨hright, .inr ⟨hkind, ?_⟩⟩⟩
      intro s hs hn hc
      obtain ⟨q, hq, hreads⟩ := hleaves s hs hn hc
      obtain ⟨r, hr, hqr⟩ := parts_padded hpad hq
      exact ⟨r, hr, hreads.padded hqr⟩
    | none =>
      have hrow : Row text (fun _ => True) l.trimmed.span [wrongLine l.trimmed.span] :=
        .leaf hin.start_boundary hin.stop_boundary (Nat.le_add_right _ _) rfl fun _ => trivial
      obtain ⟨hfits, hinside, _⟩ := hrow.single
      exact ⟨hfits, hl.slice?, hpad.encloses.trans hinside, .inl ⟨rfl, rfl⟩⟩

/-- The tree of a text fits it, and has a member for each line that is not blank, in order. -/
theorem parse_fits (text : Text) : (parse text).Fits text ∧
    List.Forall₂ (MemberOf text) ((Stretch.lines text).filter fun l => !l.isBlank)
      (parse text).children := by
  let ls := (Stretch.lines text).filter fun l => !l.isBlank
  let f : Stretch → SyntaxTree := fun l => member wrongLine l.trimmed.start l.trimmed.text
  obtain ⟨hin, hholds⟩ := Stretch.lines_in text
  have hls : ls.Sublist (Stretch.lines text) := List.filter_sublist
  have hchildren : members wrongLine 0 text.lines = ls.map f := members_eq wrongLine 0 text.lines
  have hmember {l : Stretch} (hl : l ∈ ls) := member_fits (hin l (hls.subset hl))
  have hwhole : Stretch.In text ⟨0, text⟩ := ⟨[], [], (List.append_nil text).symm, rfl⟩
  have hrow : Row text (fun _ => True) (Stretch.mk 0 text).span (ls.map f) := by
    refine ⟨hwhole.start_boundary, hwhole.stop_boundary, Nat.le_add_right _ _, ?_, fun t ht => ?_,
      fun _ _ _ _ _ _ => trivial⟩
    · rw [List.map_map]
      exact hholds.narrow hls fun l hl => (hmember hl).2.inside
    · obtain ⟨l, hl, rfl⟩ := List.mem_map.1 ht
      exact (hmember hl).1
  rw [parse, hchildren]
  constructor
  · have hroot : (⟨0, text.byteLength⟩ : Span) = (Stretch.mk 0 text).span := by
      rw [Stretch.span, Nat.zero_add]
    exact (hrow.node hroot fun _ _ => trivial).single.1
  · exact List.forall₂_map_right_iff.2 (List.forall₂_same.2 fun l hl => (hmember hl).2)

end Outline

/-- Trees that are laid out or read off a text fit it, and are read back from it. -/
theorem trees_fit_texts : (∀ p : Sketch, p.layout.2.Fits p.layout.1 ∧
      Sketch.Lays p.layout.1 p p.layout.2) ∧
    ∀ text : Text, (Outline.parse text).Fits text ∧
      List.Forall₂ (Outline.MemberOf text) ((Stretch.lines text).filter fun l => !l.isBlank)
        (Outline.parse text).children :=
  ⟨Sketch.layout_fits, Outline.parse_fits⟩

end ModuleLens
