import ModuleLens.Text.Utf8

/-! UTF-8 read and written.  The bytes of a scalar say by their first one how many they are, so they
are read back scalar by scalar; the texts that a reader accepts are those of valid strings. -/

namespace ModuleLens

namespace Utf8

theorem toNat_bounds (c : Char) :
    c.toNat < 0xD800 ∨ 0xDFFF < c.toNat ∧ c.toNat < 0x110000 := c.valid

theorem encodeChar_cases (c : Char) :
    (c.toNat < 0x80 ∧ encodeChar c = [c.toNat]) ∨
    (0x80 ≤ c.toNat ∧ c.toNat < 0x800 ∧
      encodeChar c = [0xC0 + c.toNat / 64, 0x80 + c.toNat % 64]) ∨
    (0x800 ≤ c.toNat ∧ c.toNat < 0x10000 ∧
      encodeChar c = [0xE0 + c.toNat / 4096, 0x80 + c.toNat / 64 % 64, 0x80 + c.toNat % 64]) ∨
    (0x10000 ≤ c.toNat ∧
      encodeChar c = [0xF0 + c.toNat / 262144, 0x80 + c.toNat / 4096 % 64,
        0x80 + c.toNat / 64 % 64, 0x80 + c.toNat % 64]) := by
  by_cases h₁ : c.toNat < 0x80
  · exact .inl ⟨h₁, by simp [encodeChar, h₁]⟩
  · by_cases h₂ : c.toNat < 0x800
    · exact .inr (.inl ⟨Nat.le_of_not_lt h₁, h₂, by simp [encodeChar, h₁, h₂]⟩)
    · by_cases h₃ : c.toNat < 0x10000
      · exact .inr (.inr (.inl ⟨Nat.le_of_not_lt h₂, h₃, by simp [encodeChar, h₁, h₂, h₃]⟩))
      · exact .inr (.inr (.inr ⟨Nat.le_of_not_lt h₃, by simp [encodeChar, h₁, h₂, h₃]⟩))

theorem encodeChar_eq (c : Char) : encodeChar c = (String.utf8EncodeChar c).map UInt8.toNat := by
  have hc := toNat_bounds c
  have hv : c.val.toNat = c.toNat := rfl
  rw [String.utf8EncodeChar, hv]
  rcases encodeChar_cases c with ⟨h, he⟩ | ⟨h, h', he⟩ | ⟨h, h', he⟩ | ⟨h, he⟩
  · have h₁ : c.toNat ≤ 0x7F := by omega
    simp [he, h₁]
    omega
  · have h₁ : ¬ c.toNat ≤ 0x7F := by omega
    have h₂ : c.toNat ≤ 0x7FF := by omega
    simp [he, h₁, h₂]
    omega
  · have h₁ : ¬ c.toNat ≤ 0x7F := by omega
    have h₂ : ¬ c.toNat ≤ 0x7FF := by omega
    have h₃ : c.toNat ≤ 0xFFFF := by omega
    simp [he, h₁, h₂, h₃]
    omega
  · have h₁ : ¬ c.toNat ≤ 0x7F := by omega
    have h₂ : ¬ c.toNat ≤ 0x7FF := by omega
    have h₃ : ¬ c.toNat ≤ 0xFFFF := by omega
    simp [he, h₁, h₂, h₃]
    omega

theorem lt_of_mem_encode {t : Text} {b : Nat} (h : b ∈ encode t) : b < 256 := by
  obtain ⟨c, _, hb⟩ := List.mem_flatMap.1 h
  rw [encodeChar_eq] at hb
  obtain ⟨byte, _, rfl⟩ := List.mem_map.1 hb
  exact byte.toNat_lt

variable {low high value b : Nat} {bs : List Nat}

theorem decodeFrom_scalar {c : Char} (h : lead b = .scalar c) :
    decodeFrom .between (b :: bs) = c :: decodeFrom .between bs := by
  simp [decodeFrom, step, h]

theorem decodeFrom_opens {s : State} (h : lead b = .opens s) :
    decodeFrom .between (b :: bs) = decodeFrom s bs := by
  simp [decodeFrom, step, h]

theorem decodeFrom_more {more : Nat} (h : low ≤ b ∧ b ≤ high) :
    decodeFrom (.inside (more + 2) low high value) (b :: bs) =
      decodeFrom (.inside (more + 1) 0x80 0xBF (value * 64 + (b - 0x80))) bs := by
  simp [decodeFrom, step, h]

theorem decodeFrom_last (h : low ≤ b ∧ b ≤ high) :
    decodeFrom (.inside 1 low high value) (b :: bs) =
      Char.ofNat (value * 64 + (b - 0x80)) :: decodeFrom .between bs := by
  simp [decodeFrom, step, h]

theorem lead_two {n : Nat} (h : 0x80 ≤ n) (h' : n < 0x800) :
    lead (0xC0 + n / 64) = .opens (.inside 1 0x80 0xBF (n / 64)) := by
  have h₁ : ¬ 0xC0 + n / 64 < 0x80 := by omega
  have h₂ : ¬ 0xC0 + n / 64 < 0xC2 := by omega
  have h₃ : 0xC0 + n / 64 < 0xE0 := by omega
  rw [lead, if_neg h₁, if_neg h₂, if_pos h₃, Nat.add_sub_cancel_left]

/-- The first of three bytes; the second one lies within the bounds that it sets. -/
theorem lead_three {n : Nat} (h : 0x800 ≤ n) (h' : n < 0xD800 ∨ 0xDFFF < n ∧ n < 0x10000) :
    ∃ low high, lead (0xE0 + n / 4096) = .opens (.inside 2 low high (n / 4096)) ∧
      low ≤ 0x80 + n / 64 % 64 ∧ 0x80 + n / 64 % 64 ≤ high := by
  have h₁ : ¬ 0xE0 + n / 4096 < 0x80 := by omega
  have h₂ : ¬ 0xE0 + n / 4096 < 0xC2 := by omega
  have h₃ : ¬ 0xE0 + n / 4096 < 0xE0 := by omega
  have h₆ : 0xE0 + n / 4096 < 0xF0 := by omega
  rw [lead, if_neg h₁, if_neg h₂, if_neg h₃]
  by_cases h₄ : n / 4096 = 0
  · -- overlong forms are excluded
    exact ⟨0xA0, 0xBF, by rw [h₄]; rfl, by omega, by omega⟩
  · by_cases h₅ : n / 4096 = 0xD
    · -- surrogates are excluded
      exact ⟨0x80, 0x9F, by rw [h₅]; rfl, by omega, by omega⟩
    · rw [if_neg (by omega), if_neg (by omega), if_pos h₆, Nat.add_sub_cancel_left]
      exact ⟨0x80, 0xBF, rfl, by omega, by omega⟩

theorem lead_four {n : Nat} (h : 0x10000 ≤ n) (h' : n < 0x110000) :
    ∃ low high, lead (0xF0 + n / 262144) = .opens (.inside 3 low high (n / 262144)) ∧
      low ≤ 0x80 + n / 4096 % 64 ∧ 0x80 + n / 4096 % 64 ≤ high := by
  have h₁ : ¬ 0xF0 + n / 262144 < 0x80 := by omega
  have h₂ : ¬ 0xF0 + n / 262144 < 0xC2 := by omega
  have h₃ : ¬ 0xF0 + n / 262144 < 0xE0 := by omega
  have h₄ : ¬ 0xF0 + n / 262144 = 0xE0 := by omega
  have h₅ : ¬ 0xF0 + n / 262144 = 0xED := by omega
  have h₆ : ¬ 0xF0 + n / 262144 < 0xF0 := by omega
  rw [lead, if_neg h₁, if_neg h₂, if_neg h₃, if_neg h₄, if_neg h₅, if_neg h₆]
  by_cases h₇ : n / 262144 = 0
  · -- overlong forms are excluded
    exact ⟨0x90, 0xBF, by rw [h₇]; rfl, by omega, by omega⟩
  · rw [if_neg (by omega)]
    by_cases h₈ : n / 262144 < 4
    · rw [if_pos (by omega), Nat.add_sub_cancel_left]
      exact ⟨0x80, 0xBF, rfl, by omega, by omega⟩
    · -- values beyond the last scalar are excluded
      have h₉ : n / 262144 = 4 := by omega
      exact ⟨0x80, 0x8F, by rw [h₉]; rfl, by omega, by omega⟩

theorem decodeFrom_encodeChar (c : Char) (bs : List Nat) :
    decodeFrom .between (encodeChar c ++ bs) = c :: decodeFrom .between bs := by
  have hc := toNat_bounds c
  have hback {n : Nat} (hn : n = c.toNat) : Char.ofNat n = c := by rw [hn, Char.ofNat_toNat]
  have htail {n : Nat} : 0x80 ≤ 0x80 + n % 64 ∧ 0x80 + n % 64 ≤ 0xBF := by omega
  rcases encodeChar_cases c with ⟨h, he⟩ | ⟨h, h', he⟩ | ⟨h, h', he⟩ | ⟨h, he⟩
  · have hl : lead c.toNat = .scalar c := by rw [lead, if_pos h, Char.ofNat_toNat]
    rw [he, List.singleton_append, decodeFrom_scalar hl]
  · simp only [he, List.cons_append, List.nil_append]
    rw [decodeFrom_opens (lead_two h h'), decodeFrom_last htail, hback (by omega)]
  · obtain ⟨low, high, hl, hsecond⟩ := lead_three h (by omega)
    simp only [he, List.cons_append, List.nil_append]
    rw [decodeFrom_opens hl, decodeFrom_more hsecond, decodeFrom_last htail, hback (by omega)]
  · obtain ⟨low, high, hl, hsecond⟩ := lead_four h (by omega)
    simp only [he, List.cons_append, List.nil_append]
    rw [decodeFrom_opens hl, decodeFrom_more hsecond, decodeFrom_more htail, decodeFrom_last htail,
      hback (by omega)]

theorem decode_encode (t : Text) : decode (encode t) = t := by
  induction t with
  | nil => rfl
  | cons c t ih =>
    have hc := decodeFrom_encodeChar c (encode t)
    rw [encode, List.flatMap_cons]
    exact hc.trans (congrArg (c :: ·) ih)

theorem encode_eq (t : Text) : encode t = (t.flatMap String.utf8EncodeChar).map UInt8.toNat := by
  rw [encode, List.map_flatMap]
  exact congrArg (fun f => t.flatMap f) (funext encodeChar_eq)

theorem isValidUTF8_iff {bytes : List UInt8} :
    bytes.toByteArray.IsValidUTF8 ↔ ∃ t, encode t = bytes.map UInt8.toNat := by
  constructor
  · rintro ⟨t, ht⟩
    rw [List.utf8Encode, List.toByteArray_inj] at ht
    exact ⟨t, by rw [encode_eq, ht]⟩
  · rintro ⟨t, ht⟩
    rw [encode_eq, List.map_inj_right fun _ _ => UInt8.toNat_inj.1] at ht
    exact ⟨t, by rw [List.utf8Encode, ht]⟩

theorem toNat_ofNat {n : Nat} (h : n.isValidChar) : (Char.ofNat n).toNat = n := by
  rw [Char.ofNat, dif_pos h]
  rfl

theorem encode_ascii {bs : List Nat} (h : ∀ b ∈ bs, b < 128) : encode (bs.map Char.ofNat) = bs := by
  induction bs with
  | nil => rfl
  | cons b bs ih =>
    have hb := h b List.mem_cons_self
    have hc : (Char.ofNat b).toNat = b := toNat_ofNat (.inl (by omega))
    have he : encodeChar (Char.ofNat b) = [b] := by simp [encodeChar, hc, hb]
    have ih := ih fun n hn => h n (List.mem_cons_of_mem b hn)
    rw [encode, List.map_cons, List.flatMap_cons, he, List.singleton_append]
    exact congrArg (b :: ·) ih

end Utf8

end ModuleLens
