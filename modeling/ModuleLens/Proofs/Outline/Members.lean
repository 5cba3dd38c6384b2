import ModuleLens.Proofs.Outline.Words

/-! Members of an outline.  A member is read off a trimmed line that is not blank.  A property is
read off the parts into which its first `=`, and its first `:` before that, cut the line; the parts
of a line with white space around it are those of the line, with white space around them. -/

namespace ModuleLens

namespace Outline

theorem cut_of_not_mem {c : Char} {t : Text} (h : c ∉ t) : cut c t = (t, none) := by
  have hnone : t.dropWhile (· != c) = [] :=
    List.dropWhile_eq_nil_iff.2 fun d hd => bne_iff_ne.2 fun he => h (he ▸ hd)
  rw [cut, hnone]

theorem cut_append {c : Char} {a : Text} (h : c ∉ a) (b : Text) :
    cut c (a ++ c :: b) = (a, some b) := by
  have hpass : ∀ d ∈ a, (d != c) = true := fun d hd => bne_iff_ne.2 fun he => h (he ▸ hd)
  have hdrop : (a ++ c :: b).dropWhile (· != c) = c :: b := by
    rw [List.dropWhile_append_of_pos hpass, List.dropWhile_cons_of_neg (by simp)]
  have htake : (a ++ c :: b).takeWhile (· != c) = a := by
    rw [List.takeWhile_append_of_pos hpass, List.takeWhile_cons_of_neg (by simp), List.append_nil]
  rw [cut, hdrop, htake]

theorem cut_cases (c : Char) (t : Text) : (c ∉ t ∧ cut c t = (t, none)) ∨
    ∃ a b, c ∉ a ∧ t = a ++ c :: b ∧ cut c t = (a, some b) := by
  by_cases h : c ∈ t
  · obtain ⟨a, b, rfl, ha⟩ := List.eq_append_cons_of_mem h
    exact .inr ⟨a, b, ha, rfl, cut_append ha b⟩
  · exact .inl ⟨h, cut_of_not_mem h⟩

/-- A text is cut at its first mark, and nowhere if it has none. -/
theorem cut_eq_iff {c : Char} {t a : Text} {b : Option Text} :
    cut c t = (a, b) ↔ c ∉ a ∧ t = a ++ (b.map (c :: ·)).getD [] := by
  constructor
  · intro h
    rcases cut_cases c t with ⟨hc, hcut⟩ | ⟨a', b', ha, rfl, hcut⟩
    · cases hcut.symm.trans h
      exact ⟨hc, (List.append_nil t).symm⟩
    · cases hcut.symm.trans h
      exact ⟨ha, rfl⟩
  · rintro ⟨ha, rfl⟩
    cases b with
    | none =>
      rw [Option.map_none, Option.getD_none, List.append_nil]
      exact cut_of_not_mem ha
    | some b => exact cut_append ha b

/-- What stands before the first mark of a stretch, or all of it. -/
def before (c : Char) (l : Stretch) : Stretch := ⟨l.start, (cut c l.text).1⟩

/-- What stands after the first mark of a stretch, if there is one. -/
def after? (c : Char) (l : Stretch) : Option Stretch :=
  (cut c l.text).2.map fun t => ⟨l.start + (cut c l.text).1.byteLength + c.utf8Size, t⟩

/-- The parts of a line of a property: its name, its type if there is a colon, and its value if
there is an equals sign. -/
def parts (l : Stretch) : List Stretch :=
  before ':' (before '=' l) :: ((after? ':' (before '=' l)).toList ++ (after? '=' l).toList)

section

variable {text : Text} {l m q : Stretch} {c : Char}

theorem in_before (h : l.In text) : (before c l).In text := by
  rcases cut_cases c l.text with ⟨_, hc⟩ | ⟨a, b, _, ht, hc⟩
  · rw [before, hc]
    exact h
  · have hsplit : l.text = [] ++ a ++ c :: b := ht
    rw [before, hc]
    exact h.sub hsplit

theorem in_after (h : l.In text) (hq : after? c l = some q) : q.In text := by
  rcases cut_cases c l.text with ⟨_, hc⟩ | ⟨a, b, _, ht, hc⟩
  · rw [after?, hc] at hq
    cases hq
  · rw [after?, hc] at hq
    cases hq
    have hsplit : l.text = (a ++ [c]) ++ b ++ [] := by simp [ht]
    have hin := h.sub hsplit
    rwa [Text.byteLength_append, Text.byteLength_cons, Text.byteLength_nil, Nat.add_zero,
      ← Nat.add_assoc] at hin

theorem before_stop (c : Char) (l : Stretch) :
    (before c l).span.start = l.span.start ∧ (before c l).span.stop ≤ l.span.stop := by
  refine ⟨rfl, Nat.add_le_add_left ?_ l.start⟩
  rcases cut_cases c l.text with ⟨_, hc⟩ | ⟨a, b, _, ht, hc⟩
  · rw [before, hc]
  · rw [before, hc, ht]
    exact Text.byteLength_le_of_prefix (List.prefix_append a _)

/-- What stands after a mark starts where the mark ends, and goes on to the end. -/
theorem after_span (hq : after? c l = some q) :
    q.start = (before c l).span.stop + c.utf8Size ∧ q.span.stop = l.span.stop := by
  rcases cut_cases c l.text with ⟨_, hc⟩ | ⟨a, b, _, ht, hc⟩
  · rw [after?, hc] at hq
    cases hq
  · rw [after?, hc] at hq
    cases hq
    rw [before, hc]
    refine ⟨rfl, ?_⟩
    simp only [Stretch.span, ht, Text.byteLength_append, Text.byteLength_cons, Nat.add_assoc]

theorem before_of_unmarked (h : after? c l = none) : before c l = l := by
  rcases cut_cases c l.text with ⟨_, hc⟩ | ⟨a, b, _, ht, hc⟩
  · rw [before, hc]
  · rw [after?, hc] at h
    cases h

theorem tight_after (h : l.Tight) (hq : after? c l = some q)
    (hne : q.text ≠ []) : q.Tight := by
  rcases cut_cases c l.text with ⟨_, hc⟩ | ⟨a, b, _, ht, hc⟩
  · rw [after?, hc] at hq
    cases hq
  · rw [after?, hc] at hq
    cases hq
    refine ⟨hne, fun d hd => h.2 d ?_⟩
    rw [ht, List.getLast?_append_of_ne_nil _ (List.cons_ne_nil c b),
      List.getLast?_cons_of_ne_nil hne]
    exact hd

/-- White space around a stretch stays around what stands before and after its first mark. -/
theorem padded_cut (hc : Text.isSpace c = false) (h : l.Padded m) :
    (before c l).Padded (before c m) ∧ ∀ q ∈ after? c l, ∃ r ∈ after? c m, q.Padded r := by
  obtain ⟨lead, trail, hlead, htrail, ht, hs⟩ := h
  -- A mark is no white space, so both texts are cut at the same one.
  have hfree {s : Text} (hspace : ∀ d ∈ s, Text.isSpace d) : c ∉ s := fun hmem => by
    rw [hspace c hmem] at hc
    cases hc
  rcases cut_cases c l.text with ⟨hnone, hl⟩ | ⟨a, b, ha, hsplit, hl⟩
  · have hm : cut c m.text = (m.text, none) := by
      refine cut_of_not_mem ?_
      simp [ht, hfree hlead, hnone, hfree htrail]
    rw [before, before, after?, hl, hm]
    exact ⟨⟨lead, trail, hlead, htrail, ht, hs⟩, nofun⟩
  · have hmark : m.text = (lead ++ a) ++ c :: (b ++ trail) := by simp [ht, hsplit]
    have hm : cut c m.text = (lead ++ a, some (b ++ trail)) := by
      rw [hmark]
      exact cut_append (by simp [hfree hlead, ha]) _
    rw [before, before, after?, after?, hl, hm]
    refine ⟨⟨lead, [], hlead, nofun, (List.append_nil _).symm, hs⟩, fun q hq => ?_⟩
    cases hq
    refine ⟨_, rfl, [], trail, nofun, htrail, rfl, ?_⟩
    dsimp only
    rw [hs, Text.byteLength_append, Text.byteLength_nil]
    omega

theorem parts_padded (h : l.Padded m) (hq : q ∈ parts l) : ∃ r ∈ parts m, q.Padded r := by
  have hvalue := padded_cut (show Text.isSpace '=' = false by decide) h
  have htype := padded_cut (show Text.isSpace ':' = false by decide) hvalue.1
  simp only [parts, List.mem_cons, List.mem_append, Option.mem_toList] at hq ⊢
  rcases hq with rfl | hq | hq
  · exact ⟨_, .inl rfl, htype.1⟩
  · obtain ⟨r, hr, hqr⟩ := htype.2 q hq
    exact ⟨r, .inr (.inl hr), hqr⟩
  · obtain ⟨r, hr, hqr⟩ := hvalue.2 q hq
    exact ⟨r, .inr (.inr hr), hqr⟩

end

def nameLeaf (l : Stretch) : Option SyntaxTree :=
  match words l.start l.text with
  | [w] => if isName w.text then some (.leaf "identifier" w.span) else none
  | _ => none

/-- The trees of a type, for what stands before an equals sign. -/
def annotations (l : Stretch) : Option (List SyntaxTree) :=
  match after? ':' l with
  | none => some []
  | some q => (typeClause (before ':' l).span.stop q.text).map ([·])

/-- The trees of an equals sign and a value. -/
def assigned (l : Stretch) : Option (List SyntaxTree) :=
  match after? '=' l with
  | none => some []
  | some q => assignment (before '=' l).span.stop q.text

theorem property_bind (l : Stretch) : property l.start l.text =
    (nameLeaf (before ':' (before '=' l))).bind fun name =>
      (annotations (before '=' l)).bind fun types =>
        (assigned l).bind fun values =>
          some (.rule "classProperty" ⟨l.start, ((types ++ values).getLast?.getD name).span.stop⟩
            (name :: (types ++ values))) := by
  unfold property nameLeaf annotations assigned after? before Stretch.span
  dsimp only [bind, pure]
  rcases words l.start (cut ':' (cut '=' l.text).1).1 with _ | ⟨w, _ | ⟨v, ws⟩⟩
  · rfl
  · dsimp only
    split
    · rcases (cut ':' (cut '=' l.text).1).2 with _ | t <;>
        rcases (cut '=' l.text).2 with _ | v <;> rfl
    · rfl
  · rfl

theorem nameLeaf_eq_some {l : Stretch} {t : SyntaxTree} : nameLeaf l = some t ↔
    ∃ w, words l.start l.text = [w] ∧ isName w.text ∧ t = .leaf "identifier" w.span := by
  rw [nameLeaf]
  split
  · next w hw =>
    rw [hw]
    constructor
    · intro h
      split at h
      · next hn =>
        cases h
        exact ⟨w, rfl, hn, rfl⟩
      · cases h
    · rintro ⟨v, hv, hn, rfl⟩
      cases hv
      rw [if_pos hn]
  · next hw =>
    refine ⟨nofun, ?_⟩
    rintro ⟨w, hws, _⟩
    exact absurd hws (hw w)

/-- A property is read off its name, its type and its value. -/
theorem property_eq_some {l : Stretch} {t : SyntaxTree} : property l.start l.text = some t ↔
    ∃ name types values, nameLeaf (before ':' (before '=' l)) = some name ∧
      annotations (before '=' l) = some types ∧ assigned l = some values ∧
      t = .rule "classProperty" ⟨l.start, ((types ++ values).getLast?.getD name).span.stop⟩
        (name :: (types ++ values)) := by
  rw [property_bind]
  constructor
  · intro h
    obtain ⟨name, hn, h⟩ := Option.bind_eq_some_iff.1 h
    obtain ⟨types, ht, h⟩ := Option.bind_eq_some_iff.1 h
    obtain ⟨values, hv, h⟩ := Option.bind_eq_some_iff.1 h
    cases h
    exact ⟨name, types, values, hn, ht, hv, rfl⟩
  · rintro ⟨name, types, values, hn, ht, hv, rfl⟩
    rw [hn, Option.bind_some, ht, Option.bind_some, hv, Option.bind_some]

/-- Whether the words of a line are those of an import, an amends or an extends clause. -/
def isLink : List Word → Bool
  | [keyword, path] =>
    isQuoted path.text && ["import", "amends", "extends"].contains (String.ofList keyword.text)
  | _ => false

theorem exists_of_isLink {ws : List Word} (h : isLink ws) :
    ∃ keyword path, ws = [keyword, path] := by
  unfold isLink at h
  split at h
  · exact ⟨_, _, rfl⟩
  · cases h

def linkParts (keyword path : Word) : List SyntaxTree :=
  [.token (String.ofList keyword.text) keyword.span, .leaf "stringConstant" path.span]

def linkTree (span : Span) (keyword path : Word) : SyntaxTree :=
  if String.ofList keyword.text = "import" then .rule "importClause" span (linkParts keyword path)
  else .rule "moduleHeader" span [.rule "extendsOrAmendsClause" span (linkParts keyword path)]

theorem member_link (bad : Span → SyntaxTree) {l : Stretch} {keyword path : Word}
    (hw : words l.start l.text = [keyword, path]) (h : isLink [keyword, path]) :
    member bad l.start l.text = linkTree l.span keyword path := by
  simp only [isLink, Bool.and_eq_true, List.contains_iff_mem, List.mem_cons, List.not_mem_nil,
    or_false] at h
  obtain ⟨hq, hk⟩ := h
  rw [member, hw, linkTree]
  rcases hk with hk | hk | hk <;> simp [hk, hq, linkParts, Stretch.span]

theorem member_of_not_link (bad : Span → SyntaxTree) {l : Stretch}
    (h : isLink (words l.start l.text) = false) :
    member bad l.start l.text = (property l.start l.text).getD (bad l.span) := by
  rw [member]
  split
  · next keyword path hw =>
    simp only [hw, isLink, Bool.and_eq_false_iff, List.contains_eq_mem, decide_eq_false_iff_not,
      List.mem_cons, List.not_mem_nil, or_false, not_or] at h
    rcases h with h | ⟨h₁, h₂, h₃⟩
    · simp [h, Stretch.span]
    · simp [h₁, h₂, h₃, Stretch.span]
  · rfl

theorem trimStart_isEmpty (t : Text) : (Text.trimStart t).isEmpty = t.all Text.isSpace := by
  rw [Bool.eq_iff_iff, List.isEmpty_iff, Text.trimStart, List.dropWhile_eq_nil_iff,
    List.all_eq_true]

theorem members_eq (bad : Span → SyntaxTree) (b : Nat) (ls : List Text) :
    members bad b ls = ((Stretch.linesFrom b ls).filter fun l => !l.isBlank).map fun l =>
      member bad l.trimmed.start l.trimmed.text := by
  induction ls generalizing b with
  | nil => rfl
  | cons l ls ih =>
    have hlead : l.byteLength - (Text.trimStart l).byteLength =
        Text.byteLength (l.takeWhile Text.isSpace) := by
      have hsplit : l.takeWhile Text.isSpace ++ Text.trimStart l = l :=
        List.takeWhile_append_dropWhile
      have hlen := congrArg Text.byteLength hsplit
      rw [Text.byteLength_append] at hlen
      omega
    rw [members, Stretch.linesFrom, List.filter_cons]
    rw [trimStart_isEmpty, ih, hlead]
    by_cases hblank : l.all Text.isSpace
    · rw [if_pos hblank, if_neg (by simp [Stretch.isBlank, hblank])]
    · rw [if_neg hblank, if_pos (by simpa [Stretch.isBlank] using hblank), List.map_cons]
      rfl

end Outline

end ModuleLens
