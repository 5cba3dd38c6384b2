import ModuleLens.Proofs.Text.Lines
import ModuleLens.Text.Scale

/-! Positions and byte offsets.  A position cuts a text in two: it is the position at which the
first part ends, or it lies inside a surrogate pair with which the second part begins.  A byte
offset cuts a text at the start of the scalar that holds the byte.  So the two conversions undo each
other up to this rounding, fail exactly outside the text, and keep the order. -/

namespace ModuleLens

namespace Position

/-- A position addresses a text if its line exists and is long enough, its line feed apart. -/
def Addresses (p : Position) (t : Text) : Prop :=
  ∃ line, t.lines[p.line]? = some line ∧ p.character ≤ Text.unitLength line

/-- A position splits a pair if it lies one unit after the start of a scalar of two units. -/
def Splits (p : Position) (t : Text) : Prop :=
  ∃ before c rest, t.lines[p.line]? = some (before ++ c :: rest) ∧ Text.unitWidth c = 2 ∧
    p.character = Text.unitLength before + 1

/-- A position cuts a text into two parts: it is the end of the first part, or lies inside the pair
with which the second part begins. -/
def Cuts (p : Position) (head rest : Text) : Prop :=
  p = ofText head ∨
    p = ⟨(ofText head).line, (ofText head).character + 1⟩ ∧
      ∃ c ∈ rest.head?, Text.unitWidth c = 2

theorem Cuts.before {p : Position} {head rest : Text} (h : p.Cuts head rest) :
    (ofText head).before p := by
  rcases h with rfl | ⟨rfl, _⟩
  · exact before_refl _
  · exact before_iff.2 (.inr ⟨rfl, Nat.le_succ _⟩)

theorem Cuts.not_before {p : Position} {head : Text} {c : Char} {rest : Text}
    (h : p.Cuts head (c :: rest)) : ¬ (ofText (head ++ [c])).before p := by
  rcases h with rfl | ⟨rfl, d, hd, hw⟩
  · exact ofText_not_before (List.cons_ne_nil c [])
  · cases hd
    have hc : c ≠ '\n' := by
      rintro rfl
      exact absurd hw (by decide)
    simp [ofText_append, advance, hc, before_iff, hw]

theorem Cuts.length_le {p q : Position} {head rest head' rest' : Text} (hp : p.Cuts head rest)
    (hq : q.Cuts head' rest') (ht : head ++ rest = head' ++ rest') (h : p.before q) :
    head.length ≤ head'.length := by
  refine Nat.le_of_not_lt fun hlt => ?_
  have hpre : head' <+: head :=
    List.prefix_of_prefix_length_le ⟨rest', ht.symm⟩ ⟨rest, rfl⟩ (Nat.le_of_lt hlt)
  obtain ⟨more, rfl⟩ := hpre
  cases more with
  | nil => simp at hlt
  | cons c more =>
    -- the scalar after the later cut stands before the earlier one
    rw [List.append_assoc] at ht
    have hrest := List.append_cancel_left ht
    subst hrest
    have hc : (ofText (head' ++ [c])).before (ofText (head' ++ c :: more)) := by
      refine ofText_before ⟨more, ?_⟩
      simp
    exact hq.not_before (before_trans hc (before_trans hp.before h))

theorem Cuts.unique {p : Position} {head rest head' rest' : Text} (h : p.Cuts head rest)
    (h' : p.Cuts head' rest') (ht : head ++ rest = head' ++ rest') : head = head' ∧ rest = rest' :=
  List.append_inj ht (Nat.le_antisymm (h.length_le h' ht (before_refl p))
    (h'.length_le h ht.symm (before_refl p)))

end Position

namespace Text

open Position

variable {t : Text} {p : Position}

theorem exists_cuts {n : Nat} (h : t.charOffset p = .ok n) :
    ∃ head rest, t = head ++ rest ∧ p.Cuts head rest ∧ n = head.length := by
  rw [charOffset] at h
  split at h
  · cases h
  · next start rest hl =>
    obtain ⟨lead, rfl, rfl, hlead⟩ := lineFrom_eq_some.1 hl
    dsimp only at h
    split at h
    · next hu =>
      cases h
      obtain ⟨more, hmore⟩ := firstLine_prefix rest
      obtain ⟨tail, htail, hcut⟩ := takeUnits_cases hu
      have htaken := takeUnits_prefix (firstLine rest) p.character
      have hnone : '\n' ∉ takeUnits (firstLine rest) p.character := fun hm =>
        not_mem_firstLine rest (htaken.subset hm)
      have hend : ofText (lead ++ takeUnits (firstLine rest) p.character) =
          ⟨p.line, unitLength (takeUnits (firstLine rest) p.character)⟩ := by
        rw [ofText_append, hlead, foldl_line hnone, Nat.zero_add]
      refine ⟨lead ++ takeUnits (firstLine rest) p.character, tail ++ more, ?_, ?_,
        (List.length_append).symm⟩
      · rw [List.append_assoc, ← List.append_assoc _ tail more, ← htail, hmore]
      · rw [Cuts, hend]
        rcases hcut with hcut | ⟨hcut, c, hc, hw⟩
        · exact .inl (congrArg (Position.mk p.line) hcut.symm)
        · refine .inr ⟨congrArg (Position.mk p.line) hcut, c, ?_, hw⟩
          simpa [List.head?_append] using .inl hc
    · cases h

theorem charOffset_append {head rest : Text} (h : p.Cuts head rest) :
    (head ++ rest).charOffset p = .ok head.length := by
  obtain ⟨lead, line, rfl, hline, hlead⟩ := exists_lineStart head
  have hend : ofText (lead ++ line) = ⟨(ofText (lead ++ line)).line, unitLength line⟩ := by
    conv => lhs; rw [ofText_append, hlead, foldl_line hline, Nat.zero_add]
  have hl : lineFrom 0 (lead ++ line ++ rest) (ofText (lead ++ line)).line =
      some (lead.length, line ++ rest) :=
    lineFrom_eq_some.2 ⟨lead, List.append_assoc _ _ _, rfl, hlead⟩
  have hu : (ofText (lead ++ line)).character = unitLength line := congrArg character hend
  rcases h with rfl | ⟨rfl, c, hc, hw⟩
  · rw [charOffset, hl]
    simp only [firstLine_append hline, unitLength_append, hu, takeUnits_append,
      Nat.le_add_right, if_true, List.length_append]
  · -- one unit into the pair that comes next, which is left out as a whole
    obtain ⟨more, rfl⟩ : ∃ more, rest = c :: more := by
      cases rest with
      | nil => cases hc
      | cons d more =>
        cases hc
        exact ⟨more, rfl⟩
    have hle : unitLength line + 1 ≤ unitLength line + (2 + unitLength (firstLine more)) := by
      omega
    rw [charOffset, hl]
    simp only [firstLine_append hline, firstLine_cons_pair hw, unitLength_append,
      unitLength_cons, hw, hu, takeUnits_append_pair hw, hle, if_true, List.length_append]

/-- The scalar index of a position is the length of what it cuts off. -/
theorem charOffset_eq_ok {n : Nat} :
    t.charOffset p = .ok n ↔
      ∃ head rest, t = head ++ rest ∧ p.Cuts head rest ∧ n = head.length := by
  constructor
  · exact exists_cuts
  · rintro ⟨head, rest, rfl, hcut, rfl⟩
    exact charOffset_append hcut

theorem lines_eq_some {n : Nat} {line : Text} :
    t.lines[n]? = some line ↔
      ∃ lead rest, t = lead ++ rest ∧ ofText lead = ⟨n, 0⟩ ∧ line = firstLine rest := by
  rw [lines_getElem?, line?, Option.map_eq_some_iff]
  constructor
  · rintro ⟨⟨k, rest⟩, hl, rfl⟩
    obtain ⟨lead, ht, _, hlead⟩ := lineFrom_eq_some.1 hl
    exact ⟨lead, rest, ht, hlead, rfl⟩
  · rintro ⟨lead, rest, ht, hlead, rfl⟩
    exact ⟨(lead.length, rest), lineFrom_eq_some.2 ⟨lead, ht, rfl, hlead⟩, rfl⟩

theorem splits_iff :
    p.Splits t ↔ ∃ head c rest, t = head ++ c :: rest ∧ unitWidth c = 2 ∧
      p = ⟨(ofText head).line, (ofText head).character + 1⟩ := by
  constructor
  · rintro ⟨before, c, rest, hline, hw, hu⟩
    obtain ⟨lead, tail, rfl, hlead, hfirst⟩ := lines_eq_some.1 hline
    obtain ⟨more, hmore⟩ := firstLine_prefix tail
    have hn : '\n' ∉ before := fun hm =>
      not_mem_firstLine tail (hfirst ▸ List.mem_append_left _ hm)
    refine ⟨lead ++ before, c, rest ++ more, ?_, hw, ?_⟩
    · rw [← hmore, ← hfirst]
      simp
    · rw [ofText_append, hlead, foldl_line hn, Nat.zero_add, ← hu]
  · rintro ⟨head, c, rest, rfl, hw, rfl⟩
    obtain ⟨lead, line, rfl, hline, hlead⟩ := exists_lineStart head
    have hu : (ofText (lead ++ line)).character = unitLength line := by
      rw [ofText_append, hlead, foldl_line hline, Nat.zero_add]
    refine ⟨line, c, firstLine rest, lines_eq_some.2 ⟨lead, line ++ c :: rest, ?_, hlead, ?_⟩, hw,
      congrArg (· + 1) hu⟩
    · exact List.append_assoc _ _ _
    · rw [firstLine_append hline, firstLine_cons_pair hw]

end Text

namespace Position

theorem Cuts.split {p : Position} {head rest : Text} (h : p.Cuts head rest)
    (hs : p.Splits (head ++ rest)) : p = ⟨(ofText head).line, (ofText head).character + 1⟩ := by
  obtain ⟨head', c, rest', ht, hw, hp⟩ := Text.splits_iff.1 hs
  have hcut : p.Cuts head' (c :: rest') := .inr ⟨hp, c, rfl, hw⟩
  rw [(h.unique hcut ht).1, hp]

theorem Cuts.whole {p : Position} {head rest : Text} (h : p.Cuts head rest)
    (hs : ¬ p.Splits (head ++ rest)) : p = ofText head := by
  rcases h with h | ⟨h, c, hc, hw⟩
  · exact h
  · obtain ⟨more, rfl⟩ := List.head?_eq_some_iff.1 hc
    exact absurd (Text.splits_iff.2 ⟨head, c, more, rfl, hw, h⟩) hs

end Position

namespace Text

open Position

variable {t : Text} {p : Position}

/-- A scalar starts at the offset, or the text ends there. -/
def Boundary (t : Text) (o : Nat) : Prop := ∃ head rest, t = head ++ rest ∧ o = head.byteLength

/-- The scalar that starts at offset `o` holds byte `b`; the end of the text holds itself. -/
def HoldsByte (t : Text) (o b : Nat) : Prop :=
  ∃ head rest, t = head ++ rest ∧ o = head.byteLength ∧ o ≤ b ∧ ∀ c ∈ rest.head?, b < o + c.utf8Size

theorem charOffset_eq_error {e : OutOfRange} :
    t.charOffset p = .error e ↔
      t.lines.length ≤ p.line ∧ e = .line p.line t.lines.length ∨
      ∃ line, t.lines[p.line]? = some line ∧ unitLength line < p.character ∧
        e = .character p.line p.character (unitLength line) := by
  rw [← List.getElem?_eq_none_iff, lines_getElem?, line?, charOffset, length_lines]
  cases lineFrom 0 t p.line with
  | none => simpa using eq_comm
  | some found =>
    by_cases hu : p.character ≤ unitLength (firstLine found.2)
    · simp [hu, Nat.not_lt.2 hu]
    · simpa [hu, Nat.lt_of_not_le hu] using eq_comm

theorem exists_charOffset : (∃ n, t.charOffset p = .ok n) ↔ p.Addresses t := by
  rw [Addresses, lines_getElem?, line?, charOffset]
  cases lineFrom 0 t p.line with
  | none => simp
  | some found =>
    by_cases hu : p.character ≤ unitLength (firstLine found.2)
    · simp [hu]
    · simp [hu]

theorem offsetOf_eq_ok {o : Nat} :
    t.offsetOf p = .ok o ↔
      ∃ head rest, t = head ++ rest ∧ p.Cuts head rest ∧ o = head.byteLength := by
  rw [offsetOf]
  cases hc : t.charOffset p with
  | error e =>
    constructor
    · intro h
      cases h
    · rintro ⟨head, rest, ht, hcut, _⟩
      rw [charOffset_eq_ok.2 ⟨head, rest, ht, hcut, rfl⟩] at hc
      cases hc
  | ok n =>
    obtain ⟨head, rest, rfl, hcut, rfl⟩ := charOffset_eq_ok.1 hc
    simp only [Except.map, List.take_left, Except.ok.injEq]
    constructor
    · rintro rfl
      exact ⟨head, rest, rfl, hcut, rfl⟩
    · rintro ⟨head', rest', ht, hcut', rfl⟩
      rw [(hcut.unique hcut' ht).1]

theorem offsetOf_eq_error {e : OutOfRange} :
    t.offsetOf p = .error e ↔ t.charOffset p = .error e := by
  rw [offsetOf]
  cases t.charOffset p <;> simp [Except.map]

theorem takeBytes_cases (t : Text) (b : Nat) :
    ∃ rest, t = takeBytes t b ++ rest ∧ byteLength (takeBytes t b) ≤ b ∧
      ∀ c ∈ rest.head?, b < byteLength (takeBytes t b) + c.utf8Size := by
  induction t generalizing b with
  | nil => exact ⟨[], rfl, Nat.zero_le b, fun _ hc => nomatch hc⟩
  | cons c t ih =>
    by_cases hc : c.utf8Size ≤ b
    · obtain ⟨rest, ht, hle, hlt⟩ := ih (b - c.utf8Size)
      refine ⟨rest, ?_, ?_, fun d hd => ?_⟩
      · rw [takeBytes, if_pos hc, List.cons_append, ← ht]
      · rw [takeBytes, if_pos hc, byteLength_cons]
        omega
      · have hd := hlt d hd
        rw [takeBytes, if_pos hc, byteLength_cons]
        omega
    · refine ⟨c :: t, ?_, ?_, fun d hd => ?_⟩
      · rw [takeBytes, if_neg hc, List.nil_append]
      · rw [takeBytes, if_neg hc]
        exact Nat.zero_le b
      · cases hd
        rw [takeBytes, if_neg hc, byteLength_nil]
        omega

theorem takeBytes_prefix_of_le {b b' : Nat} (h : b ≤ b') (t : Text) :
    takeBytes t b <+: takeBytes t b' := by
  induction t generalizing b b' with
  | nil => exact List.nil_prefix
  | cons c t ih =>
    rw [takeBytes, takeBytes]
    by_cases hc : c.utf8Size ≤ b
    · rw [if_pos hc, if_pos (Nat.le_trans hc h)]
      exact List.cons_prefix_cons.2 ⟨rfl, ih (Nat.sub_le_sub_right h _)⟩
    · rw [if_neg hc]
      exact List.nil_prefix

theorem Boundary.takeBytes {b : Nat} (h : t.Boundary b) : (takeBytes t b).byteLength = b := by
  obtain ⟨head, rest, rfl, rfl⟩ := h
  rw [takeBytes_append]

theorem positionOf_eq_ok {b : Nat} :
    t.positionOf b = .ok p ↔ b ≤ t.byteLength ∧ p = ofText (takeBytes t b) := by
  rw [positionOf]
  split
  · next h => simpa [positionAt, h] using eq_comm
  · next h => simp [h]

theorem positionOf_byteLength (head rest : Text) :
    positionOf (head ++ rest) head.byteLength = .ok (ofText head) := by
  rw [positionOf_eq_ok, takeBytes_append, byteLength_append]
  exact ⟨Nat.le_add_right _ _, rfl⟩

theorem charOffset_mono {q : Position} {n m : Nat} (h : p.before q) (hp : t.charOffset p = .ok n)
    (hq : t.charOffset q = .ok m) : n ≤ m := by
  obtain ⟨head, rest, rfl, hcut, rfl⟩ := charOffset_eq_ok.1 hp
  obtain ⟨head', rest', ht, hcut', rfl⟩ := charOffset_eq_ok.1 hq
  exact hcut.length_le hcut' ht h

theorem byteLength_le_of_prefix {s u : Text} (h : s <+: u) : s.byteLength ≤ u.byteLength := by
  obtain ⟨rest, rfl⟩ := h
  rw [byteLength_append]
  exact Nat.le_add_right _ _

theorem offsetOf_mono {q : Position} {o o' : Nat} (h : p.before q) (hp : t.offsetOf p = .ok o)
    (hq : t.offsetOf q = .ok o') : o ≤ o' := by
  obtain ⟨head, rest, rfl, hcut, rfl⟩ := offsetOf_eq_ok.1 hp
  obtain ⟨head', rest', ht, hcut', rfl⟩ := offsetOf_eq_ok.1 hq
  have hle := hcut.length_le hcut' ht h
  exact byteLength_le_of_prefix
    (List.prefix_of_prefix_length_le ⟨rest, rfl⟩ ⟨rest', ht.symm⟩ hle)

theorem positionOf_mono {b b' : Nat} {q : Position} (h : b ≤ b') (hp : t.positionOf b = .ok p)
    (hq : t.positionOf b' = .ok q) : p.before q := by
  obtain ⟨_, rfl⟩ := positionOf_eq_ok.1 hp
  obtain ⟨_, rfl⟩ := positionOf_eq_ok.1 hq
  exact ofText_before (takeBytes_prefix_of_le h t)

theorem positionOf_strict {b b' : Nat} {q : Position} (h : b < b') (hb : t.Boundary b)
    (hb' : t.Boundary b') (hp : t.positionOf b = .ok p) (hq : t.positionOf b' = .ok q) : p ≠ q := by
  obtain ⟨_, rfl⟩ := positionOf_eq_ok.1 hp
  obtain ⟨_, rfl⟩ := positionOf_eq_ok.1 hq
  obtain ⟨more, hmore⟩ := takeBytes_prefix_of_le (Nat.le_of_lt h) t
  have hne : more ≠ [] := by
    rintro rfl
    have hlen := congrArg byteLength hmore
    rw [List.append_nil, hb.takeBytes, hb'.takeBytes] at hlen
    omega
  intro heq
  refine ofText_not_before (s := takeBytes t b) hne ?_
  rw [hmore, ← heq]
  exact before_refl _

theorem exists_position {b : Nat} (h : b ≤ t.byteLength) :
    ∃ p o, t.positionOf b = .ok p ∧ t.offsetOf p = .ok o ∧ t.HoldsByte o b ∧
      (t.Boundary b → o = b) := by
  obtain ⟨rest, ht, hle, hlt⟩ := takeBytes_cases t b
  refine ⟨ofText (takeBytes t b), (takeBytes t b).byteLength, positionOf_eq_ok.2 ⟨h, rfl⟩,
    offsetOf_eq_ok.2 ⟨takeBytes t b, rest, ht, .inl rfl, rfl⟩,
    ⟨takeBytes t b, rest, ht, rfl, hle, hlt⟩, fun hb => hb.takeBytes⟩

theorem positionOf_offsetOf {o : Nat} (h : t.offsetOf p = .ok o) :
    (¬ p.Splits t → t.positionOf o = .ok p) ∧
      (p.Splits t → t.positionOf o = .ok ⟨p.line, p.character - 1⟩) := by
  obtain ⟨head, rest, rfl, hcut, rfl⟩ := offsetOf_eq_ok.1 h
  rw [positionOf_byteLength]
  constructor
  · intro hs
    rw [hcut.whole hs]
  · intro hs
    rw [hcut.split hs]
    rfl

end Text

/-- Positions and byte offsets of a text undo each other up to rounding: a byte comes back as the
start of the scalar that holds it, and a position as itself or as the start of the pair that it
splits.  A position has no offset exactly if its line does not exist or is too short.  Both ways
keep the order, strictly between scalars.  A scale of the text gives the same answers, and the
numbers of a position fit in 32 bits if the length of the text does. -/
theorem positions_invert_offsets (t : Text) :
    (∀ b ≤ t.byteLength, ∃ p o, t.positionOf b = .ok p ∧ t.offsetOf p = .ok o ∧
      t.HoldsByte o b ∧ (t.Boundary b → o = b)) ∧
    (∀ p o, t.offsetOf p = .ok o →
      (¬ p.Splits t → t.positionOf o = .ok p) ∧
        (p.Splits t → t.positionOf o = .ok ⟨p.line, p.character - 1⟩)) ∧
    (∀ p e, t.offsetOf p = .error e ↔
      t.lines.length ≤ p.line ∧ e = .line p.line t.lines.length ∨
      ∃ line, t.lines[p.line]? = some line ∧ line.unitLength < p.character ∧
        e = .character p.line p.character line.unitLength) ∧
    (∀ b b' p p', b ≤ b' → t.positionOf b = .ok p → t.positionOf b' = .ok p' →
      p.before p' ∧ (t.Boundary b → t.Boundary b' → b < b' → p ≠ p')) ∧
    (∀ p p' o o', p.before p' → t.offsetOf p = .ok o → t.offsetOf p' = .ok o' → o ≤ o') ∧
    (∀ s : Scale t, (∀ b, s.positionOf b = t.positionOf b) ∧ ∀ p, s.offsetOf p = t.offsetOf p) ∧
    (t.byteLength < UInt32.size → ∀ b p, t.positionOf b = .ok p →
      p.line < UInt32.size ∧ p.character < UInt32.size) := by
  refine ⟨fun b hb => Text.exists_position hb, fun p o ho => Text.positionOf_offsetOf ho,
    fun p e => Text.offsetOf_eq_error.trans Text.charOffset_eq_error,
    fun b b' p p' hle hp hp' => ⟨Text.positionOf_mono hle hp hp', fun hb hb' hlt =>
      Text.positionOf_strict hlt hb hb' hp hp'⟩,
    fun p p' o o' hle ho ho' => Text.offsetOf_mono hle ho ho',
    fun s => ⟨s.positionOf_eq, s.offsetOf_eq⟩, fun hlen b p hp => ?_⟩
  obtain ⟨_, rfl⟩ := Text.positionOf_eq_ok.1 hp
  obtain ⟨rest, ht, _⟩ := Text.takeBytes_cases t b
  have hpre := Text.byteLength_le_of_prefix ⟨rest, ht.symm⟩
  have hsum := Position.line_le_byteLength (t.takeBytes b)
  omega

/-- A letter, a pair and a line feed, then a letter of two bytes. -/
def pairText : Text := ['a', '😀', '\n', 'é']

theorem positions_invert_offsets_pair :
    3 ≤ pairText.byteLength ∧ pairText.positionOf 3 = .ok ⟨0, 1⟩ ∧
    pairText.offsetOf ⟨0, 2⟩ = .ok 1 ∧ Position.Splits ⟨0, 2⟩ pairText ∧
    pairText.positionOf 1 = .ok ⟨0, 1⟩ ∧
    pairText.offsetOf ⟨1, 2⟩ = .error (.character 1 2 1) ∧
    pairText.byteLength < UInt32.size := by
  obtain ⟨_, hback, hfails, _⟩ := positions_invert_offsets pairText
  have hsplit : Position.Splits ⟨0, 2⟩ pairText := ⟨['a'], '😀', [], by decide, by decide, by decide⟩
  refine ⟨by decide, by decide, by decide, hsplit, (hback ⟨0, 2⟩ 1 (by decide)).2 hsplit, ?_,
    by decide⟩
  exact (hfails ⟨1, 2⟩ _).2 (.inr ⟨['é'], by decide, by decide, by decide⟩)

end ModuleLens
