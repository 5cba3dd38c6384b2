import ModuleLens.Location.Percent
import ModuleLens.Proofs.Text.Utf8

/-! Percent coding and its inverse.  Writing spells the bytes of a text in the one way in which they
can be spelt, and reading gives back what was written.  So a text is written by someone exactly if
it spells valid UTF-8. -/

namespace ModuleLens

namespace Percent

/-- A letter, a digit or one of `-._~/`. -/
def isPlain (c : Char) : Bool := c.isAlphanum || ['-', '.', '_', '~', '/'].contains c

def hexDigit (n : Nat) : Char := "0123456789ABCDEF".toList.getD n '0'

/-- A text that spells bytes: plain ones stand for themselves, all others are written as a percent
sign and two upper-case digits. -/
inductive Spells : Text → List UInt8 → Prop where
  | nil : Spells [] []
  | plain {t : Text} {bytes : List UInt8} (b : UInt8) (hb : isPlain (Char.ofNat b.toNat))
      (ht : Spells t bytes) : Spells (Char.ofNat b.toNat :: t) (b :: bytes)
  | escape {t : Text} {bytes : List UInt8} (b : UInt8) (hb : ¬ isPlain (Char.ofNat b.toNat))
      (ht : Spells t bytes) :
      Spells ('%' :: hexDigit (b.toNat / 16) :: hexDigit (b.toNat % 16) :: t) (b :: bytes)

theorem isKept_eq {n : Nat} (h : n < 256) : isKept n = isPlain (Char.ofNat n) := by
  revert n
  decide +kernel

theorem ofNat_digit {n : Nat} (h : n < 16) : Char.ofNat (digit n) = hexDigit n := by
  revert n
  decide

theorem digitValue?_digit {n : Nat} (h : n < 16) : digitValue? (digit n) = some n := by
  revert n
  decide

theorem digit_lt {n : Nat} (h : n < 16) : digit n < 128 := by
  rw [digit]
  split <;> omega

theorem isKept_lt {b : Nat} (h : isKept b) : b < 128 := by
  simp only [isKept, Bool.or_eq_true, Bool.and_eq_true, decide_eq_true_eq, beq_iff_eq] at h
  omega

theorem not_isKept_percent : isKept 37 = false := rfl

theorem lt_of_mem_escapeByte {b n : Nat} (hb : b < 256) (h : n ∈ escapeByte b) : n < 128 := by
  rw [escapeByte] at h
  split at h
  · next hk =>
    rw [List.mem_singleton.1 h]
    exact isKept_lt hk
  · simp only [List.mem_cons, List.not_mem_nil, or_false] at h
    rcases h with rfl | rfl | rfl
    · decide
    · exact digit_lt (by omega)
    · exact digit_lt (by omega)

theorem unescape_kept {b : Nat} (h : b ≠ 37) (rest : List Nat) :
    unescape (b :: rest) = b :: unescape rest := by
  rw [unescape]
  intro _ _ _ hb
  exact absurd hb h

theorem unescape_escapeByte {b : Nat} (hb : b < 256) (rest : List Nat) :
    unescape (escapeByte b ++ rest) = b :: unescape rest := by
  rw [escapeByte]
  split
  · next hk =>
    refine unescape_kept ?_ rest
    rintro rfl
    rw [not_isKept_percent] at hk
    cases hk
  · have hhigh := digitValue?_digit (n := b / 16) (by omega)
    have hlow := digitValue?_digit (n := b % 16) (by omega)
    simp only [List.cons_append, List.nil_append, unescape, hhigh, hlow]
    rw [Nat.div_add_mod' b 16]

theorem unescape_flatMap {bs : List Nat} (h : ∀ b ∈ bs, b < 256) :
    unescape (bs.flatMap escapeByte) = bs := by
  induction bs with
  | nil => rfl
  | cons b bs ih =>
    rw [List.flatMap_cons, unescape_escapeByte (h b List.mem_cons_self),
      ih fun n hn => h n (List.mem_cons_of_mem b hn)]

theorem decode_encode (s : Text) : decode (encode s) = s := by
  have hbytes : ∀ b ∈ Utf8.encode s, b < 256 := fun b => Utf8.lt_of_mem_encode
  have hascii : ∀ n ∈ (Utf8.encode s).flatMap escapeByte, n < 128 := by
    intro n hn
    obtain ⟨b, hb, hn⟩ := List.mem_flatMap.1 hn
    exact lt_of_mem_escapeByte (hbytes b hb) hn
  rw [decode, encode, Utf8.encode_ascii hascii, unescape_flatMap hbytes, Utf8.decode_encode]

theorem map_escapeByte (b : UInt8) :
    (escapeByte b.toNat).map Char.ofNat =
      if isPlain (Char.ofNat b.toNat) then [Char.ofNat b.toNat]
      else ['%', hexDigit (b.toNat / 16), hexDigit (b.toNat % 16)] := by
  have hb := b.toNat_lt
  have hhigh := ofNat_digit (n := b.toNat / 16) (by omega)
  have hlow := ofNat_digit (n := b.toNat % 16) (by omega)
  rw [escapeByte, isKept_eq hb]
  split
  · rfl
  · rw [List.map_cons, List.map_cons, List.map_singleton, hhigh, hlow]

/-- Each row of bytes is spelt in one way. -/
theorem spells_iff {t : Text} {bytes : List UInt8} :
    Spells t bytes ↔ t = ((bytes.map UInt8.toNat).flatMap escapeByte).map Char.ofNat := by
  constructor
  · intro h
    induction h with
    | nil => rfl
    | plain b hb _ ih =>
      rw [List.map_cons, List.flatMap_cons, List.map_append, map_escapeByte, if_pos hb, ← ih]
      rfl
    | escape b hb _ ih =>
      rw [List.map_cons, List.flatMap_cons, List.map_append, map_escapeByte, if_neg hb, ← ih]
      rfl
  · rintro rfl
    induction bytes with
    | nil => exact .nil
    | cons b bytes ih =>
      rw [List.map_cons, List.flatMap_cons, List.map_append, map_escapeByte]
      split
      · next hb => exact .plain b hb ih
      · next hb => exact .escape b hb ih

theorem encode_eq_iff {s t : Text} :
    encode s = t ↔ ∃ bytes, Spells t bytes ∧ Utf8.encode s = bytes.map UInt8.toNat := by
  constructor
  · rintro rfl
    have hbytes := Utf8.encode_eq s
    exact ⟨_, spells_iff.2 (by rw [encode, hbytes]), hbytes⟩
  · rintro ⟨bytes, ht, hs⟩
    rw [encode, hs]
    exact (spells_iff.1 ht).symm

theorem exists_encode_eq {t : Text} :
    (∃ s, encode s = t) ↔ ∃ bytes, Spells t bytes ∧ bytes.toByteArray.IsValidUTF8 := by
  simp only [encode_eq_iff, Utf8.isValidUTF8_iff]
  constructor
  · rintro ⟨s, bytes, ht, hs⟩
    exact ⟨bytes, ht, s, hs⟩
  · rintro ⟨bytes, ht, s, hs⟩
    exact ⟨s, bytes, ht, hs⟩

end Percent

open Percent

/-- Reading undoes writing, and writing undoes reading on the texts that spell valid UTF-8; these
are all texts that are written, each for one text only. -/
theorem percent_coding_inverse :
    (∀ s, decode (encode s) = s) ∧
    (∀ t bytes, Spells t bytes → bytes.toByteArray.IsValidUTF8 → encode (decode t) = t) ∧
    Function.Injective encode ∧
    ∀ t, (∃ s, encode s = t) ↔ ∃ bytes, Spells t bytes ∧ bytes.toByteArray.IsValidUTF8 := by
  refine ⟨decode_encode, fun t bytes ht hvalid => ?_, Function.LeftInverse.injective decode_encode,
    fun t => exists_encode_eq⟩
  obtain ⟨s, rfl⟩ := exists_encode_eq.2 ⟨bytes, ht, hvalid⟩
  rw [decode_encode]

theorem percent_coding_inverse_accent :
    Spells "/a%C3%A9%25~".toList [47, 97, 195, 169, 37, 126] ∧
    [47, 97, 195, 169, 37, 126].toByteArray.IsValidUTF8 ∧
    decode "/a%C3%A9%25~".toList = "/aé%~".toList ∧
    encode (decode "/a%C3%A9%25~".toList) = "/a%C3%A9%25~".toList := by
  have hspells : Spells "/a%C3%A9%25~".toList [47, 97, 195, 169, 37, 126] :=
    spells_iff.2 (by decide)
  have hvalid : [47, 97, 195, 169, 37, 126].toByteArray.IsValidUTF8 :=
    Utf8.isValidUTF8_iff.2 ⟨"/aé%~".toList, by decide⟩
  exact ⟨hspells, hvalid, by decide, percent_coding_inverse.2.1 _ _ hspells hvalid⟩

end ModuleLens
