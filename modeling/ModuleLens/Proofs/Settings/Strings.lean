import Mathlib.Data.List.DropRight
import ModuleLens.Settings.Json

/-! White space, and strings between their quotes.  A scalar of a string stands there as it is or
as an escape, and reading gives the scalar however it is written.  A string that nobody asked for
may hold any code unit as an escape, also half of a surrogate pair. -/

namespace ModuleLens

namespace Json

def Blank (w : Text) : Prop := ∀ c ∈ w, isBlank c

theorem blank_nil : Blank [] := fun _ hc => nomatch hc

theorem blank_space : Blank [' '] := fun _ hc => List.mem_singleton.1 hc ▸ rfl

theorem skipBlank_append {w : Text} (hw : Blank w) (t : Text) :
    skipBlank (w ++ t) = skipBlank t :=
  List.dropWhile_append_of_pos hw

theorem skipBlank_cons {c : Char} (hc : isBlank c = false) (t : Text) :
    skipBlank (c :: t) = c :: t :=
  List.dropWhile_cons_of_neg (by simp [hc])

theorem skipBlank_skipBlank (t : Text) : skipBlank (skipBlank t) = skipBlank t :=
  List.dropWhile_idempotent _ _

theorem skipBlank_token {w : Text} (hw : Blank w) {c : Char} (hc : isBlank c = false) (t : Text) :
    skipBlank (w ++ c :: t) = c :: t := by
  rw [skipBlank_append hw, skipBlank_cons hc]

/-- Four hexadecimal digits and the code unit that they write. -/
inductive IsUnit : Nat → Text → Prop
  | mk {a b c d : Char} {x y z w : Nat} (ha : hexValue? a = some x) (hb : hexValue? b = some y)
      (hc : hexValue? c = some z) (hd : hexValue? d = some w) :
      IsUnit (((x * 16 + y) * 16 + z) * 16 + w) [a, b, c, d]

/-- Whether a scalar may be written as it is. -/
def isPlain (c : Char) : Bool := 0x20 ≤ c.toNat && c != '"' && c != '\\'

/-- The ways to write a scalar in a string: as it is, by a short escape, by its code unit or by the
halves of its surrogate pair. -/
inductive Writes : Char → Text → Prop
  | plain {c : Char} (hc : isPlain c) : Writes c [c]
  | short {c e : Char} (he : shortEscape? e = some c) : Writes c ['\\', e]
  | unit {c : Char} {u : Text} (hu : IsUnit c.toNat u) : Writes c ('\\' :: 'u' :: u)
  | pair {c : Char} {u v : Text} (hc : 0x10000 ≤ c.toNat)
      (hu : IsUnit (0xD800 + (c.toNat - 0x10000) / 0x400) u)
      (hv : IsUnit (0xDC00 + (c.toNat - 0x10000) % 0x400) v) :
      Writes c ('\\' :: 'u' :: u ++ '\\' :: 'u' :: v)

/-- What stands between the quotes of a string with these contents. -/
inductive Spells : Text → Text → Prop
  | nil : Spells [] []
  | cons {c : Char} {t p k : Text} (hc : Writes c p) (ht : Spells t k) :
      Spells (c :: t) (p ++ k)

theorem spells_self {t : Text} (h : t.all isPlain) : Spells t t := by
  induction t with
  | nil => exact .nil
  | cons c t ih =>
    rw [List.all_cons, Bool.and_eq_true] at h
    exact .cons (.plain h.1) (ih h.2)

/-- What may stand between the quotes of a string if nobody asks for its contents. -/
inductive IsString : Text → Prop
  | nil : IsString []
  | plain {c : Char} {k : Text} (hc : isPlain c) (hk : IsString k) : IsString (c :: k)
  | short {c e : Char} {k : Text} (he : shortEscape? e = some c) (hk : IsString k) :
      IsString ('\\' :: e :: k)
  | unit {n : Nat} {u k : Text} (hu : IsUnit n u) (hk : IsString k) :
      IsString ('\\' :: 'u' :: (u ++ k))

/-! ### One scalar after the other -/

section

variable {lenient : Bool} {s s' : StringState} {c : Char} {t out more rest : Text}

theorem readStringFrom_cons (hs : ¬(s = .plain ∧ c = '"'))
    (h : stringStep lenient s c t = .ok (out, s'))
    (ht : readStringFrom lenient s' t = .ok (more, rest)) :
    readStringFrom lenient s (c :: t) = .ok (out ++ more, rest) := by
  simp only [readStringFrom, if_neg hs, h, ht]

/-- A scalar inside an escape adds nothing, and only the state changes. -/
theorem readStringFrom_silent (h : stringStep lenient s c t = .ok ([], s'))
    (hs : s ≠ .plain ∨ c = '\\') :
    readStringFrom lenient s (c :: t) = readStringFrom lenient s' t := by
  have hs : ¬(s = .plain ∧ c = '"') := by
    rintro ⟨rfl, rfl⟩
    simp at hs
  simp only [readStringFrom, if_neg hs, h]
  cases readStringFrom lenient s' t <;> rfl

theorem readStringFrom_hex {m value d : Nat} {high : Option Nat} (hc : hexValue? c = some d)
    (hm : 1 < m) :
    readStringFrom lenient (.hex m value high) (c :: t) =
      readStringFrom lenient (.hex (m - 1) (value * 16 + d) high) t :=
  readStringFrom_silent (by simp [stringStep, hc, Nat.not_le.2 hm]) (.inl nofun)

theorem enterHex_unit {n : Nat} {u : Text} (hu : IsUnit n u) (high : Option Nat) (t : Text) :
    enterHex high (u ++ t) = .ok (.hex 4 0 high) := by
  cases hu with
  | @mk a b c d _ _ _ _ ha hb hc hd =>
    have hlen : 4 ≤ Text.byteLength [a, b, c, d] := by
      have := a.utf8Size_pos
      have := b.utf8Size_pos
      have := c.utf8Size_pos
      have := d.utf8Size_pos
      simp only [Text.byteLength_cons, Text.byteLength_nil]
      omega
    exact if_neg (Nat.not_lt.2 hlen)

/-- Four digits are read up to the last one, which decides what the code unit amounts to. -/
theorem readStringFrom_unit {n : Nat} {u : Text} {high : Option Nat} (hu : IsUnit n u)
    (h : finishHex lenient n high = .ok (out, s))
    (ht : readStringFrom lenient s t = .ok (more, rest)) :
    readStringFrom lenient (.hex 4 0 high) (u ++ t) = .ok (out ++ more, rest) := by
  cases hu with
  | @mk a b c d x y z w ha hb hc hd =>
    have hlast : readStringFrom lenient (.hex 1 ((x * 16 + y) * 16 + z) high) (d :: t) =
        .ok (out ++ more, rest) :=
      readStringFrom_cons (by simp) (by simpa [stringStep, hd] using h) ht
    rw [← hlast]
    change readStringFrom lenient _ (a :: b :: c :: d :: t) = _
    rw [readStringFrom_hex (m := 4) ha (by decide), readStringFrom_hex (m := 3) hb (by decide),
      readStringFrom_hex (m := 2) hc (by decide), Nat.zero_mul, Nat.zero_add]

theorem readStringFrom_plain (hc : isPlain c)
    (ht : readStringFrom lenient .plain t = .ok (more, rest)) :
    readStringFrom lenient .plain (c :: t) = .ok (c :: more, rest) := by
  obtain ⟨⟨hlow, hquote⟩, hslash⟩ : (0x20 ≤ c.toNat ∧ c ≠ '"') ∧ c ≠ '\\' := by
    simpa [isPlain] using hc
  have hstep : stringStep lenient .plain c t = .ok ([c], .plain) := by
    simp [stringStep, hslash, Nat.not_lt.2 hlow]
  exact readStringFrom_cons (by simp [hquote]) hstep ht

theorem readStringFrom_short {e : Char} (he : shortEscape? e = some c)
    (ht : readStringFrom lenient .plain t = .ok (more, rest)) :
    readStringFrom lenient .plain ('\\' :: e :: t) = .ok (c :: more, rest) := by
  have hu : e ≠ 'u' := by
    rintro rfl
    simp [shortEscape?] at he
  have hslash : stringStep lenient .plain '\\' (e :: t) = .ok ([], .escaped) := rfl
  have hstep : stringStep lenient .escaped e t = .ok ([c], .plain) := by
    simp [stringStep, hu, he]
  rw [readStringFrom_silent hslash (.inr rfl)]
  exact readStringFrom_cons (by simp) hstep ht

/-- Where an escape of a code unit may begin: anywhere, or after the first half of a pair. -/
inductive Escapes : StringState → Option Nat → Prop
  | alone : Escapes .plain none
  | second (high : Nat) : Escapes (.joint high) (some high)

theorem readStringFrom_escape {s₀ : StringState} {high : Option Nat} {n : Nat} {u : Text}
    (hs₀ : Escapes s₀ high) (hu : IsUnit n u) (h : finishHex lenient n high = .ok (out, s))
    (ht : readStringFrom lenient s t = .ok (more, rest)) :
    readStringFrom lenient s₀ ('\\' :: 'u' :: (u ++ t)) = .ok (out ++ more, rest) := by
  obtain ⟨s₁, hslash, hs₁, henter⟩ : ∃ s₁, stringStep lenient s₀ '\\' ('u' :: (u ++ t)) =
      .ok ([], s₁) ∧ s₁ ≠ .plain ∧
      stringStep lenient s₁ 'u' (u ++ t) = (enterHex high (u ++ t)).map fun s => ([], s) := by
    cases hs₀ with
    | alone => exact ⟨.escaped, rfl, nofun, rfl⟩
    | second high => exact ⟨.second high, rfl, nofun, rfl⟩
  rw [enterHex_unit hu] at henter
  rw [readStringFrom_silent hslash (.inr rfl), readStringFrom_silent henter (.inl hs₁)]
  exact readStringFrom_unit hu h ht

end

/-! ### Strings that are read -/

theorem finishHex_scalar (c : Char) : finishHex false c.toNat none = .ok ([c], .plain) := by
  have hc : c.toNat < 0xD800 ∨ 0xDFFF < c.toNat ∧ c.toNat < 0x110000 := c.valid
  rw [finishHex, if_neg Bool.false_ne_true, if_neg (by omega), if_neg (by omega), Char.ofNat_toNat]

theorem finishHex_high {c : Char} (hc : 0x10000 ≤ c.toNat) :
    finishHex false (0xD800 + (c.toNat - 0x10000) / 0x400) none =
      .ok ([], .joint (0xD800 + (c.toNat - 0x10000) / 0x400)) := by
  have hlt : c.toNat < 0xD800 ∨ 0xDFFF < c.toNat ∧ c.toNat < 0x110000 := c.valid
  rw [finishHex, if_neg Bool.false_ne_true, if_neg (by omega), if_pos (by omega)]

/-- The halves of a surrogate pair are put together to the scalar that they were taken from. -/
theorem finishHex_low {c : Char} (hc : 0x10000 ≤ c.toNat) :
    finishHex false (0xDC00 + (c.toNat - 0x10000) % 0x400)
      (some (0xD800 + (c.toNat - 0x10000) / 0x400)) = .ok ([c], .plain) := by
  have hback : 0x10000 + (0xD800 + (c.toNat - 0x10000) / 0x400 - 0xD800) * 0x400 +
      (0xDC00 + (c.toNat - 0x10000) % 0x400 - 0xDC00) = c.toNat := by omega
  rw [finishHex, if_neg Bool.false_ne_true, if_pos (by omega), hback, Char.ofNat_toNat]

theorem Writes.read {c : Char} {p t more rest : Text} (h : Writes c p)
    (ht : readString t = .ok (more, rest)) : readString (p ++ t) = .ok (c :: more, rest) := by
  cases h with
  | plain hc => exact readStringFrom_plain hc ht
  | short he => exact readStringFrom_short he ht
  | unit hu => exact readStringFrom_escape .alone hu (finishHex_scalar c) ht
  | pair hc hu hv =>
    have hsecond := readStringFrom_escape (.second _) hv (finishHex_low hc) ht
    have hfirst := readStringFrom_escape .alone hu (finishHex_high hc) hsecond
    simpa [readString] using hfirst

theorem Spells.read {t k : Text} (h : Spells t k) (rest : Text) :
    readString (k ++ '"' :: rest) = .ok (t, rest) := by
  induction h with
  | nil => simp [readString, readStringFrom]
  | cons hc _ ih =>
    rw [List.append_assoc]
    exact hc.read ih

/-! ### Strings that are skipped -/

theorem IsString.skip {k : Text} (h : IsString k) (rest : Text) :
    skipString (k ++ '"' :: rest) = .ok rest := by
  suffices ∃ out, readStringFrom true .plain (k ++ '"' :: rest) = .ok (out, rest) by
    obtain ⟨out, hout⟩ := this
    rw [skipString, hout]
    rfl
  induction h with
  | nil => exact ⟨[], by simp [readStringFrom]⟩
  | plain hc _ ih =>
    obtain ⟨out, ih⟩ := ih
    exact ⟨_, readStringFrom_plain hc ih⟩
  | short he _ ih =>
    obtain ⟨out, ih⟩ := ih
    exact ⟨_, readStringFrom_short he ih⟩
  | unit hu _ ih =>
    obtain ⟨out, ih⟩ := ih
    have hunit := readStringFrom_escape .alone hu rfl ih
    exact ⟨_, by simpa using hunit⟩

end Json

end ModuleLens
