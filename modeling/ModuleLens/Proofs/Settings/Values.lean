import ModuleLens.Proofs.Settings.Skipping
import ModuleLens.Settings

/-! Values that are asked for: natural numbers, truth values, and features in an array.  Wherever
one of them is written, with white space before it, it is read with what comes after it left over. -/

namespace ModuleLens

namespace Json

/-! ### Natural numbers -/

theorem le_ofDigitChars (ds : Text) (a : Nat) : a ≤ Nat.ofDigitChars 10 ds a := by
  induction ds generalizing a with
  | nil => exact Nat.le_of_eq Nat.ofDigitChars_nil.symm
  | cons c ds ih =>
    rw [Nat.ofDigitChars_cons]
    exact Nat.le_trans (by omega) (ih _)

theorem foldl_push {ds : Text} {a : Nat} (h : Nat.ofDigitChars 10 ds a < UInt64.size) :
    ds.foldl Gathered.push ⟨a, 0⟩ = ⟨Nat.ofDigitChars 10 ds a, 0⟩ := by
  induction ds generalizing a with
  | nil => rfl
  | cons c ds ih =>
    rw [Nat.ofDigitChars_cons] at h ⊢
    have hnext : a * 10 + digitValue c = 10 * a + (c.toNat - '0'.toNat) := by
      rw [Nat.mul_comm]
      rfl
    have hlt := Nat.lt_of_le_of_lt (le_ofDigitChars ds _) h
    rw [List.foldl_cons, Gathered.push]
    simp only [hnext, hlt, and_self, if_true]
    exact ih h

/-- Rounding to 53 bits changes a number by one unit of its last place at most. -/
theorem nearest53_le (n : Nat) : nearest53 n ≤ n + 1 <<< (n.log2 - 52) := by
  simp only [nearest53]
  have hlow := Nat.div_mul_le_self n (1 <<< (n.log2 - 52))
  split
  · rw [Nat.succ_mul]
    omega
  · omega

theorem isTooLarge_zero {n : Nat} (h : n < UInt64.size) : isTooLarge n 0 = false := by
  have hone : nearest53 (Nat.pow 10 (0 : Int).toNat) = 1 := by decide
  have hbits : n.log2 - 52 ≤ 12 := by
    by_cases hn : n = 0
    · rw [hn, Nat.log2_zero]
      decide
    · have hlog : n.log2 < 64 := (Nat.log2_lt hn).2 h
      omega
  have hle : nearest53 n ≤ n + 2 ^ 12 := by
    have hunit : 2 ^ (n.log2 - 52) ≤ 2 ^ 12 := Nat.pow_le_pow_right (by decide) hbits
    rw [← Nat.one_shiftLeft] at hunit
    exact Nat.le_trans (nearest53_le n) (Nat.add_le_add_left hunit n)
  have hrange : 2 ^ 65 ≤ 1 <<< 1024 - 1 <<< 970 := by decide
  have hsize : UInt64.size = 2 ^ 64 := rfl
  have hlt : ¬1 <<< 1024 - 1 <<< 970 ≤ nearest53 n * 1 := by omega
  rw [isTooLarge, hone, decide_eq_false hlt]
  simp

theorem IsDigits.not_negative {ds : Text} (hd : IsDigits ds) (t : Text) :
    ((ds ++ t).head? == some '-') = false := by
  obtain ⟨d, u, rfl, hdig⟩ := hd.head
  have hne := ne_of_isDigit (d := '-') hdig rfl
  simp [hne]

theorem readNumber_whole {w t : Text} (hw : IsWhole w)
    (h : Nat.ofDigitChars 10 w 0 < UInt64.size) (ht : Stops t) :
    readNumber (w ++ t) = .ok (some (Nat.ofDigitChars 10 w 0), t) := by
  obtain ⟨hdigit, hpoint, he, hE⟩ := ht.head
  have hne : (w ++ t).isEmpty = false := by simp [hw.digits.1]
  have hminus := hw.digits.not_negative t
  simp only [readNumber, hminus, hne, hw.digits.starts, hw.lead_append hdigit,
    digits_append hw.digits hdigit, afterDigits_append hw.digits hdigit, foldl_push h,
    readFraction_of_head hpoint, Bool.not_true, Bool.false_eq_true, if_false, bind, Except.bind,
    readExponent_of_head he hE]
  exact if_neg (Bool.eq_false_iff.1 (isTooLarge_zero h))

theorem IsDigits.skipBlank_append {ds : Text} (hd : IsDigits ds) {b : Text} (hb : Blank b)
    (t : Text) : skipBlank (b ++ (ds ++ t)) = ds ++ t := by
  obtain ⟨d, u, rfl, hdig⟩ := hd.head
  exact skipBlank_token hb (not_isBlank_of_isDigit hdig) _

/-- A natural number in decimal. -/
def IsNatural (n : Nat) (v : Text) : Prop := IsWhole v ∧ Nat.ofDigitChars 10 v 0 = n

theorem IsNatural.read {n : Nat} {b v t : Text} (hv : IsNatural n v) (hn : n < UInt64.size)
    (hb : Blank b) (ht : Stops t) : readNatural (b ++ (v ++ t)) = .ok (n, t) := by
  obtain ⟨hw, rfl⟩ := hv
  simp only [readNatural, hw.digits.skipBlank_append hb, hw.digits.starts, Bool.or_true, if_true,
    readNumber_whole hw hn ht]

theorem head_toDigits {n : Nat} (h : n ≠ 0) : (Nat.toDigits 10 n).head? ≠ some '0' := by
  induction n using Nat.strongRecOn with
  | ind n ih =>
    by_cases hn : n < 10
    · rw [Nat.toDigits_of_lt_base hn]
      simpa using h
    · have hne : Nat.toDigits 10 (n / 10) ≠ [] := Nat.toDigits_ne_nil
      rw [Nat.toDigits_of_base_le (by decide) (by omega), List.head?_append_of_ne_nil _ hne]
      exact ih (n / 10) (by omega) (by omega)

theorem isNatural_toString (n : Nat) : IsNatural n (toString n).toList := by
  have hdigits : (toString n).toList = Nat.toDigits 10 n := Nat.toList_repr
  rw [hdigits]
  refine ⟨⟨⟨Nat.toDigits_ne_nil, fun c hc => ?_⟩, fun hhead => ?_⟩, Nat.ofDigitChars_ten_toDigits⟩
  · exact Nat.isDigit_of_mem_toDigits (by decide) (by decide) hc
  · by_cases hn : n = 0
    · rw [hn, Nat.toDigits_zero]
    · exact absurd hhead (head_toDigits hn)

/-! ### Truth values and nulls -/

def truth : Bool → Text
  | true => ['t', 'r', 'u', 'e']
  | false => ['f', 'a', 'l', 's', 'e']

theorem readBool_truth {w : Text} (hw : Blank w) (b : Bool) (t : Text) :
    readBool (w ++ (truth b ++ t)) = .ok (b, t) := by
  cases b <;> rw [readBool, truth, List.cons_append, skipBlank_token hw (by decide)] <;> rfl

theorem readNull_null {w : Text} (hw : Blank w) (t : Text) :
    readNull (w ++ 'n' :: 'u' :: 'l' :: 'l' :: t) = .ok t := by
  rw [readNull, skipBlank_token hw (by decide)]
  rfl

theorem readColon_colon {w : Text} (hw : Blank w) (t : Text) :
    readColon (w ++ ':' :: t) = .ok t := by
  rw [readColon, skipBlank_token hw (by decide)]
  rfl

/-! ### Elements -/

/-- What stands between what was read of a row and its next element. -/
inductive Leads : Bool → Text → Prop
  | first : Leads true []
  | next {w : Text} (hw : Blank w) : Leads false (w ++ [','])

theorem Leads.nextElement {first : Bool} {p r : Text} (hp : Leads first p) (hr : Opens r)
    (t : Text) : nextElement first (p ++ (r ++ t)) = .ok (some (skipBlank (r ++ t))) := by
  obtain ⟨c, u, h, hc, -⟩ := hr
  cases hp with
  | first =>
    rw [List.nil_append, Json.nextElement, h]
    split
    · next h => exact absurd h (List.cons_ne_nil _ _)
    · next h => exact absurd (List.cons.inj h).1 hc
    · next h => rw [if_pos rfl, ← h]
  | next hw =>
    rw [List.append_assoc, List.singleton_append, Json.nextElement, skipBlank_token hw (by decide)]
    split
    · next hcomma => exact absurd hcomma (List.cons_ne_nil _ _)
    · next hcomma => exact absurd (List.cons.inj hcomma).1 (by decide)
    · next hcomma =>
      cases hcomma
      rw [if_neg Bool.false_ne_true, if_pos rfl, h]
      split
      · next h => exact absurd h (List.cons_ne_nil _ _)
      · next h => exact absurd (List.cons.inj h).1 hc
      · rfl

theorem nextElement_end {w : Text} (hw : Blank w) (first : Bool) (t : Text) :
    nextElement first (w ++ ']' :: t) = .ok none ∧ endArray (w ++ ']' :: t) = .ok t := by
  rw [nextElement, endArray, skipBlank_token hw (by decide)]
  exact ⟨rfl, rfl⟩

end Json

namespace Settings

open Json

/-! ### Features -/

/-- A feature is written as its name, or as the only key of an object. -/
inductive IsFeature (f : Feature) : Text → Prop
  | name {k : Text} (hk : Spells f.name.toList k) : IsFeature f ('"' :: (k ++ ['"']))
  | entry {w k w₁ w₂ w₃ : Text} (hw : Blank w) (hk : Spells f.name.toList k) (hw₁ : Blank w₁)
      (hw₂ : Blank w₂) (hw₃ : Blank w₃) :
      IsFeature f ('{' :: (w ++ '"' :: (k ++ '"' :: (w₁ ++ ':' ::
        (w₂ ++ 'n' :: 'u' :: 'l' :: 'l' :: (w₃ ++ ['}']))))))

theorem featureNamed_name (f : Feature) : featureNamed f.name.toList = .ok f := by
  cases f <;> rfl

theorem IsFeature.read {f : Feature} {w v : Text} (h : IsFeature f v) (hw : Blank w) (t : Text) :
    readFeature (w ++ (v ++ t)) = .ok (f, t) := by
  cases h with
  | name hk =>
    rw [readFeature, List.cons_append, skipBlank_token hw (by decide), List.append_assoc]
    simp only [List.singleton_append, hk.read, bind, Except.bind, featureNamed_name]
    rfl
  | entry hw' hk hw₁ hw₂ hw₃ =>
    simp only [List.cons_append, List.append_assoc, List.nil_append]
    rw [readFeature, skipBlank_token hw (by decide)]
    simp only [skipBlank_token hw' (c := '"') rfl, hk.read, bind, Except.bind, featureNamed_name,
      readColon_colon hw₁, readNull_null hw₂, skipBlank_token hw₃ (c := '}') rfl]
    rfl

theorem IsFeature.opens {f : Feature} {v : Text} (h : IsFeature f v) : Opens v := by
  cases h <;> exact .token (by decide) (by decide) (by decide) _

theorem readFeature_skipBlank (t : Text) : readFeature (skipBlank t) = readFeature t := by
  rw [readFeature, skipBlank_skipBlank, readFeature]

/-- The elements of an array of features, with the white space around them. -/
inductive AreFeatures : List Feature → Text → Prop
  | last {f : Feature} {w v w' : Text} (hw : Blank w) (hv : IsFeature f v) (hw' : Blank w') :
      AreFeatures [f] (w ++ (v ++ w'))
  | more {f : Feature} {fs : List Feature} {w v w' r : Text} (hw : Blank w) (hv : IsFeature f v)
      (hw' : Blank w') (hr : AreFeatures fs r) :
      AreFeatures (f :: fs) (w ++ (v ++ (w' ++ ',' :: r)))

theorem AreFeatures.opens {fs : List Feature} {r : Text} (h : AreFeatures fs r) : Opens r := by
  cases h with
  | last hw hv _ => exact .blank hw (hv.opens.append _)
  | more hw hv _ _ => exact .blank hw (hv.opens.append _)

theorem readFeaturesFrom_cons {n : Nat} {first : Bool} {p w v t rest : Text} {f : Feature}
    {fs : List Feature} (hp : Leads first p) (hw : Blank w) (hv : IsFeature f v)
    (h : readFeaturesFrom n false t = .ok (fs, rest)) :
    readFeaturesFrom (n + 1) first (p ++ (w ++ (v ++ t))) = .ok (f :: fs, rest) := by
  have hnext := hp.nextElement (.blank hw hv.opens) t
  rw [List.append_assoc] at hnext
  simp only [readFeaturesFrom, hnext, readFeature_skipBlank, hv.read hw, h]
  rfl

theorem AreFeatures.read {fs : List Feature} {r : Text} (h : AreFeatures fs r) {n : Nat}
    {first : Bool} {p : Text} (hp : Leads first p) (hn : r.length < n) (t : Text) :
    readFeaturesFrom n first (p ++ (r ++ ']' :: t)) = .ok (fs, t) := by
  induction h generalizing n first p with
  | @last f w v w' hw hv hw' =>
    have hpos := hv.opens.length_pos
    simp only [List.length_append] at hn
    obtain ⟨n, rfl⟩ : ∃ m, n = m + 2 := Nat.exists_eq_add_of_le' (by omega)
    have hend := nextElement_end hw' false t
    simp only [List.append_assoc]
    refine readFeaturesFrom_cons hp hw hv ?_
    simp only [readFeaturesFrom, hend]
    rfl
  | @more f fs w v w' r hw hv hw' _ ih =>
    simp only [List.length_append, List.length_cons] at hn
    obtain ⟨n, rfl⟩ : ∃ m, n = m + 1 := Nat.exists_eq_add_one_of_ne_zero (by omega)
    have hrest := ih (.next hw') (n := n) (by omega)
    simp only [List.append_assoc, List.singleton_append] at hrest
    simp only [List.append_assoc, List.cons_append]
    exact readFeaturesFrom_cons hp hw hv hrest

inductive IsFeatureArray : List Feature → Text → Prop
  | empty {w : Text} (hw : Blank w) : IsFeatureArray [] ('[' :: (w ++ [']']))
  | features {fs : List Feature} {r : Text} (hr : AreFeatures fs r) :
      IsFeatureArray fs ('[' :: (r ++ [']']))

theorem IsFeatureArray.read {fs : List Feature} {w v : Text} (h : IsFeatureArray fs v)
    (hw : Blank w) (t : Text) : readFeatures (w ++ (v ++ t)) = .ok (fs, t) := by
  cases h with
  | empty hw' =>
    have hend := nextElement_end hw' true t
    rw [readFeatures, List.cons_append, List.append_assoc, skipBlank_token hw (by decide)]
    simp only [List.singleton_append, readFeaturesFrom, hend]
    rfl
  | @features _ r hr =>
    have hlen : r.length < (r ++ ([']'] ++ t)).length + 1 := by
      rw [List.length_append]
      omega
    rw [readFeatures, List.cons_append, List.append_assoc, skipBlank_token hw (by decide)]
    exact hr.read .first hlen t

end Settings

end ModuleLens
