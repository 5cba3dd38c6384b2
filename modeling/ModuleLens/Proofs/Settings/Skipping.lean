import ModuleLens.Proofs.Settings.Strings

/-! Values that nobody asked for.  They are what the grammar of JSON derives, with white space
between any two tokens and nested to any depth.  Such a value is skipped up to its end, whatever
comes after it. -/

namespace ModuleLens

namespace Json

/-! ### Numbers -/

def IsDigits (t : Text) : Prop := t ≠ [] ∧ ∀ c ∈ t, isDigit c

/-- Digits, of which the first one is no zero unless it stands alone. -/
structure IsWhole (t : Text) : Prop where
  digits : IsDigits t
  lead : t.head? = some '0' → t = ['0']

inductive IsFraction : Text → Prop
  | empty : IsFraction []
  | point {ds : Text} (hd : IsDigits ds) : IsFraction ('.' :: ds)

inductive IsExponent : Text → Prop
  | empty : IsExponent []
  | power {e : Char} {sign ds : Text} (he : e = 'e' ∨ e = 'E')
      (hs : sign = [] ∨ sign = ['+'] ∨ sign = ['-']) (hd : IsDigits ds) :
      IsExponent (e :: (sign ++ ds))

/-- A number without its sign. -/
inductive IsAmount : Text → Prop
  | mk {w f e : Text} (hw : IsWhole w) (hf : IsFraction f) (he : IsExponent e) :
      IsAmount (w ++ (f ++ e))

/-- What comes after a value does not go on with it. -/
def Stops (t : Text) : Prop := ∀ c ∈ t.head?, isBlank c ∨ c = ',' ∨ c = ']' ∨ c = '}'

theorem isBlank_cases {c : Char} (h : isBlank c) : c = ' ' ∨ c = '\n' ∨ c = '\t' ∨ c = '\r' := by
  simpa [isBlank, or_assoc] using h

theorem Stops.cons {c : Char} (hc : c = ',' ∨ c = ']' ∨ c = '}') (t : Text) : Stops (c :: t) := by
  rintro _ ⟨⟩
  exact .inr hc

theorem Stops.append {w : Text} (hw : Blank w) {t : Text} (ht : Stops t) : Stops (w ++ t) := by
  cases w with
  | nil => exact ht
  | cons c w =>
    rintro _ ⟨⟩
    exact .inl (hw c List.mem_cons_self)

theorem Stops.head {t : Text} (h : Stops t) :
    startsWithDigit t = false ∧ t.head? ≠ some '.' ∧ t.head? ≠ some 'e' ∧ t.head? ≠ some 'E' := by
  cases t with
  | nil => simp [startsWithDigit]
  | cons c t =>
    have hc : (c = ' ' ∨ c = '\n' ∨ c = '\t' ∨ c = '\r') ∨ c = ',' ∨ c = ']' ∨ c = '}' :=
      (h c rfl).imp_left isBlank_cases
    rcases hc with (rfl | rfl | rfl | rfl) | rfl | rfl | rfl <;> simp [startsWithDigit, isDigit]

theorem ne_of_isDigit {c d : Char} (hc : isDigit c) (hd : isDigit d = false) : c ≠ d := by
  rintro rfl
  exact Bool.false_ne_true (hd.symm.trans hc)

theorem not_isBlank_of_isDigit {c : Char} (hc : isDigit c) : isBlank c = false := by
  rw [Bool.eq_false_iff]
  intro h
  rcases isBlank_cases h with rfl | rfl | rfl | rfl <;> exact absurd hc (by decide)

theorem IsDigits.head {ds : Text} (hd : IsDigits ds) : ∃ d u, ds = d :: u ∧ isDigit d := by
  obtain ⟨d, u, rfl⟩ := List.exists_cons_of_ne_nil hd.1
  exact ⟨d, u, rfl, hd.2 d List.mem_cons_self⟩

theorem IsDigits.starts {ds : Text} (hd : IsDigits ds) (t : Text) :
    startsWithDigit (ds ++ t) = true := by
  obtain ⟨d, u, rfl, hdig⟩ := hd.head
  simpa [startsWithDigit] using hdig

section

variable {ds t : Text}

theorem digits_append (hd : IsDigits ds) (ht : startsWithDigit t = false) :
    digits (ds ++ t) = ds := by
  rw [digits, List.takeWhile_append_of_pos hd.2]
  cases t with
  | nil => rw [List.takeWhile_nil, List.append_nil]
  | cons c t =>
    have hc : ¬isDigit c = true := by simpa [startsWithDigit] using ht
    rw [List.takeWhile_cons_of_neg hc, List.append_nil]

theorem afterDigits_append (hd : IsDigits ds) (ht : startsWithDigit t = false) :
    afterDigits (ds ++ t) = t := by
  rw [afterDigits, List.dropWhile_append_of_pos hd.2]
  cases t with
  | nil => rfl
  | cons c t => exact List.dropWhile_cons_of_neg (by simpa [startsWithDigit] using ht)

end

theorem readFraction_of_head {t : Text} (h : t.head? ≠ some '.') :
    readFraction t = .ok (none, t) := by
  cases t with
  | nil => rfl
  | cons c t =>
    have hc : c ≠ '.' := fun hc => h (congrArg some hc)
    simp [readFraction, hc]

theorem readExponent_of_head {t : Text} (he : t.head? ≠ some 'e') (hE : t.head? ≠ some 'E') :
    readExponent t = .ok (none, t) := by
  cases t with
  | nil => rfl
  | cons c t =>
    rw [List.head?_cons, Ne, Option.some_inj] at he hE
    exact if_neg (not_or.2 ⟨he, hE⟩)

theorem IsFraction.read {f t : Text} (hf : IsFraction f) (hdigit : startsWithDigit t = false)
    (hpoint : t.head? ≠ some '.') : ∃ o, readFraction (f ++ t) = .ok (o, t) := by
  cases hf with
  | empty => exact ⟨none, readFraction_of_head hpoint⟩
  | @point ds hd =>
    refine ⟨some (digits (ds ++ t)), ?_⟩
    rw [List.cons_append, readFraction, if_pos (hd.starts t), afterDigits_append hd hdigit]

theorem IsExponent.read {e t : Text} (he : IsExponent e) (ht : Stops t) :
    ∃ o, readExponent (e ++ t) = .ok (o, t) := by
  obtain ⟨hdigit, _, he₁, he₂⟩ := ht.head
  cases he with
  | empty => exact ⟨none, readExponent_of_head he₁ he₂⟩
  | @power e sign ds he hs hd =>
    have hstart := hd.starts t
    have hafter := afterDigits_append hd hdigit
    rcases hs with rfl | rfl | rfl
    · obtain ⟨d, u, rfl, hdig⟩ := hd.head
      have hminus := ne_of_isDigit (d := '-') hdig rfl
      have hplus := ne_of_isDigit (d := '+') hdig rfl
      rw [List.cons_append] at hstart hafter
      exact ⟨_, by simp [readExponent, he, hminus, hplus, hstart, hafter]; rfl⟩
    · exact ⟨_, by simp [readExponent, he, hstart, hafter, hd.1]; rfl⟩
    · exact ⟨_, by simp [readExponent, he, hstart, hafter, hd.1]; rfl⟩

theorem IsExponent.head {e t : Text} (he : IsExponent e) (ht : Stops t) :
    startsWithDigit (e ++ t) = false ∧ (e ++ t).head? ≠ some '.' := by
  cases he with
  | empty => exact ⟨ht.head.1, ht.head.2.1⟩
  | power he _ _ => rcases he with rfl | rfl <;> simp [startsWithDigit, isDigit]

theorem IsFraction.head {f t : Text} (hf : IsFraction f) (ht : startsWithDigit t = false) :
    startsWithDigit (f ++ t) = false := by
  cases hf with
  | empty => exact ht
  | point _ => simp [startsWithDigit, isDigit]

theorem IsWhole.lead_append {w t : Text} (hw : IsWhole w) (ht : startsWithDigit t = false) :
    ((w ++ t).head? == some '0' && startsWithDigit (w ++ t).tail) = false := by
  obtain ⟨c, u, rfl, _⟩ := hw.digits.head
  by_cases hc : c = '0'
  · have hu : u = [] := List.tail_eq_of_cons_eq (hw.lead (congrArg some hc))
    simp [hu, ht]
  · simp [hc]

theorem IsAmount.skip {a t : Text} (ha : IsAmount a) (ht : Stops t) :
    skipNumber (a ++ t) = .ok t := by
  cases ha with
  | @mk w f e hw hf he =>
    obtain ⟨hdigit, hpoint⟩ := he.head ht
    have hdigit' := hf.head hdigit
    obtain ⟨_, hfraction⟩ := hf.read hdigit hpoint
    obtain ⟨_, hexponent⟩ := he.read ht
    have hlead := hw.lead_append hdigit'
    rw [List.append_assoc, List.append_assoc, skipNumber, if_pos (hw.digits.starts _), hlead,
      if_neg Bool.false_ne_true, afterDigits_append hw.digits hdigit', hfraction]
    simp only [skipExponent, hexponent]

theorem IsAmount.head {a : Text} (ha : IsAmount a) : ∃ c u, a = c :: u ∧ isDigit c := by
  cases ha with
  | @mk w f e hw _ _ =>
    obtain ⟨c, u, rfl, hc⟩ := hw.digits.head
    exact ⟨c, u ++ (f ++ e), rfl, hc⟩

/-! ### Values -/

/-- What the grammar derives texts for; an element and a member stand with the white space around
them. -/
inductive Category where
  | value
  | element
  | elements
  | member
  | members

inductive Derives : Category → Text → Prop
  | null : Derives .value ['n', 'u', 'l', 'l']
  | yes : Derives .value ['t', 'r', 'u', 'e']
  | no : Derives .value ['f', 'a', 'l', 's', 'e']
  | amount {a : Text} (ha : IsAmount a) : Derives .value a
  | negative {a : Text} (ha : IsAmount a) : Derives .value ('-' :: a)
  | string {k : Text} (hk : IsString k) : Derives .value ('"' :: (k ++ ['"']))
  | emptyArray {w : Text} (hw : Blank w) : Derives .value ('[' :: (w ++ [']']))
  | array {r : Text} (hr : Derives .elements r) : Derives .value ('[' :: (r ++ [']']))
  | emptyObject {w : Text} (hw : Blank w) : Derives .value ('{' :: (w ++ ['}']))
  | object {r : Text} (hr : Derives .members r) : Derives .value ('{' :: (r ++ ['}']))
  | element {w v w' : Text} (hw : Blank w) (hv : Derives .value v) (hw' : Blank w') :
      Derives .element (w ++ (v ++ w'))
  | lastElement {e : Text} (he : Derives .element e) : Derives .elements e
  | moreElements {e r : Text} (he : Derives .element e) (hr : Derives .elements r) :
      Derives .elements (e ++ ',' :: r)
  | member {w k w' e : Text} (hw : Blank w) (hk : IsString k) (hw' : Blank w')
      (he : Derives .element e) : Derives .member (w ++ '"' :: (k ++ '"' :: (w' ++ ':' :: e)))
  | lastMember {m : Text} (hm : Derives .member m) : Derives .members m
  | moreMembers {m r : Text} (hm : Derives .member m) (hr : Derives .members r) :
      Derives .members (m ++ ',' :: r)

/-- After white space there is a token that closes nothing. -/
def Opens (t : Text) : Prop :=
  ∃ c u, (∀ rest, skipBlank (t ++ rest) = c :: (u ++ rest)) ∧ c ≠ ']' ∧ c ≠ '}'

theorem Opens.token {c : Char} (hblank : isBlank c = false) (hbracket : c ≠ ']')
    (hbrace : c ≠ '}') (u : Text) : Opens (c :: u) :=
  ⟨c, u, fun _ => skipBlank_cons hblank _, hbracket, hbrace⟩

theorem Opens.blank {w t : Text} (hw : Blank w) (ht : Opens t) : Opens (w ++ t) := by
  obtain ⟨c, u, h, hc⟩ := ht
  refine ⟨c, u, fun rest => ?_, hc⟩
  rw [List.append_assoc, skipBlank_append hw, h]

theorem Opens.append {t : Text} (ht : Opens t) (t' : Text) : Opens (t ++ t') := by
  obtain ⟨c, u, h, hc⟩ := ht
  refine ⟨c, u ++ t', fun rest => ?_, hc⟩
  rw [List.append_assoc, h, List.append_assoc]

theorem Opens.length_pos {t : Text} (ht : Opens t) : 0 < t.length := by
  obtain ⟨c, u, h, -⟩ := ht
  cases t with
  | nil => exact nomatch h []
  | cons c t => exact Nat.succ_pos _

theorem Derives.opens {k : Category} {t : Text} (h : Derives k t) : Opens t := by
  induction h with
  | null | yes | no | negative _ | string _ | emptyArray _ | array _ _ | emptyObject _
  | object _ _ => exact .token (by decide) (by decide) (by decide) _
  | amount ha =>
    obtain ⟨c, u, rfl, hc⟩ := ha.head
    exact .token (not_isBlank_of_isDigit hc) (ne_of_isDigit hc rfl) (ne_of_isDigit hc rfl) u
  | element hw _ _ ih => exact .blank hw (ih.append _)
  | member hw _ _ _ _ => exact .blank hw (.token (by decide) (by decide) (by decide) _)
  | lastElement _ ih | lastMember _ ih => exact ih
  | moreElements _ _ ih _ | moreMembers _ _ ih _ => exact ih.append _

/-! ### One token after the other -/

section

variable {n : Nat} {t u rest : Text} {c : Char}

theorem skipValue_skipBlank (n : Nat) (t : Text) : skipValue n (skipBlank t) = skipValue n t := by
  cases n with
  | zero => rfl
  | succ n => simp only [skipValue, skipBlank_skipBlank]

theorem skipElements_skipBlank (n : Nat) (t : Text) :
    skipElements n (skipBlank t) = skipElements n t := by
  cases n with
  | zero => rfl
  | succ n => simp only [skipElements, skipValue_skipBlank]

theorem skipMembers_skipBlank (n : Nat) (t : Text) :
    skipMembers n (skipBlank t) = skipMembers n t := by
  cases n with
  | zero => rfl
  | succ n => simp only [skipMembers, skipBlank_skipBlank]

theorem skipValue_digit (hc : isDigit c) : skipValue (n + 1) (c :: t) = skipNumber (c :: t) := by
  rw [skipValue, skipBlank_cons (not_isBlank_of_isDigit hc)]
  split
  · next h => exact absurd h (List.cons_ne_nil c t)
  iterate 7
    · next h =>
      cases h
      exact absurd hc (by decide)
  · next h =>
    cases h
    exact if_pos hc

theorem skipValue_array (ht : Opens t) (rest : Text) :
    skipValue (n + 1) ('[' :: (t ++ rest)) = skipElements n (t ++ rest) := by
  obtain ⟨c, u, h, hc, -⟩ := ht
  rw [← skipElements_skipBlank n, h, skipValue, skipBlank_cons (by decide)]
  simp only [h]
  split
  · next h => exact absurd (List.cons.inj h).1 hc
  · rfl

theorem skipValue_object (ht : Opens t) (rest : Text) :
    skipValue (n + 1) ('{' :: (t ++ rest)) = skipMembers n (t ++ rest) := by
  obtain ⟨c, u, h, -, hc⟩ := ht
  rw [← skipMembers_skipBlank n, h, skipValue, skipBlank_cons (by decide)]
  simp only [h]
  split
  · next h => exact absurd (List.cons.inj h).1 hc
  · rfl

variable {w k w' : Text}

theorem skipElements_next (hw : Blank w) (h : skipValue n t = .ok (w ++ ',' :: rest)) :
    skipElements (n + 1) t = skipElements n rest := by
  simp only [skipElements, h, skipBlank_token hw (c := ',') rfl]

theorem skipElements_end (hw : Blank w) (h : skipValue n t = .ok (w ++ ']' :: rest)) :
    skipElements (n + 1) t = .ok rest := by
  simp only [skipElements, h, skipBlank_token hw (c := ']') rfl]

theorem skipMembers_next (hw : Blank w) (hk : IsString k) (hw' : Blank w') (hu : Blank u)
    (h : skipValue n t = .ok (u ++ ',' :: rest)) :
    skipMembers (n + 1) (w ++ '"' :: (k ++ '"' :: (w' ++ ':' :: t))) = skipMembers n rest := by
  simp only [skipMembers, skipBlank_token hw (c := '"') rfl, hk.skip,
    skipBlank_token hw' (c := ':') rfl, h, skipBlank_token hu (c := ',') rfl]

theorem skipMembers_end (hw : Blank w) (hk : IsString k) (hw' : Blank w') (hu : Blank u)
    (h : skipValue n t = .ok (u ++ '}' :: rest)) :
    skipMembers (n + 1) (w ++ '"' :: (k ++ '"' :: (w' ++ ':' :: t))) = .ok rest := by
  simp only [skipMembers, skipBlank_token hw (c := '"') rfl, hk.skip,
    skipBlank_token hw' (c := ':') rfl, h, skipBlank_token hu (c := '}') rfl]

end

/-! ### What is derived is skipped -/

/-- How a reader gets past what is derived, if its count is not below the length of the text. -/
def Category.Skips : Category → Text → Prop
  | .value, v => ∀ n t, v.length ≤ n + 1 → Stops t → skipValue (n + 1) (v ++ t) = .ok t
  | .element, e => ∃ w, Blank w ∧ ∀ n c t, e.length ≤ n → c = ',' ∨ c = ']' ∨ c = '}' →
      skipValue n (e ++ c :: t) = .ok (w ++ c :: t)
  | .elements, r => ∀ n t, r.length < n → skipElements n (r ++ ']' :: t) = .ok t
  | .member, m => ∀ n t, m.length ≤ n →
      skipMembers (n + 1) (m ++ ',' :: t) = skipMembers n t ∧
      skipMembers (n + 1) (m ++ '}' :: t) = .ok t
  | .members, r => ∀ n t, r.length < n → skipMembers n (r ++ '}' :: t) = .ok t

theorem skips_amount {a : Text} (ha : IsAmount a) : Category.value.Skips a := by
  intro n t _ ht
  obtain ⟨c, u, rfl, hc⟩ := ha.head
  rw [List.cons_append, skipValue_digit hc]
  exact ha.skip ht

theorem skips_string {k : Text} (hk : IsString k) :
    Category.value.Skips ('"' :: (k ++ ['"'])) := by
  intro n t _ _
  rw [List.cons_append, List.append_assoc]
  exact hk.skip t

theorem skips_emptyArray {w : Text} (hw : Blank w) :
    Category.value.Skips ('[' :: (w ++ [']'])) := by
  intro n t _ _
  rw [List.cons_append, List.append_assoc, skipValue, skipBlank_cons (by decide)]
  simp only [List.singleton_append, skipBlank_token hw (c := ']') rfl]

theorem skips_array {r : Text} (ho : Opens r) (hr : Category.elements.Skips r) :
    Category.value.Skips ('[' :: (r ++ [']'])) := by
  intro n t hn _
  rw [List.length_cons, List.length_append, List.length_singleton] at hn
  rw [List.cons_append, List.append_assoc, skipValue_array ho]
  exact hr n t (by omega)

theorem skips_emptyObject {w : Text} (hw : Blank w) :
    Category.value.Skips ('{' :: (w ++ ['}'])) := by
  intro n t _ _
  rw [List.cons_append, List.append_assoc, skipValue, skipBlank_cons (by decide)]
  simp only [List.singleton_append, skipBlank_token hw (c := '}') rfl]

theorem skips_object {r : Text} (ho : Opens r) (hr : Category.members.Skips r) :
    Category.value.Skips ('{' :: (r ++ ['}'])) := by
  intro n t hn _
  rw [List.length_cons, List.length_append, List.length_singleton] at hn
  rw [List.cons_append, List.append_assoc, skipValue_object ho]
  exact hr n t (by omega)

theorem skips_element {w v w' : Text} (hw : Blank w) (ho : Opens v)
    (hv : Category.value.Skips v) (hw' : Blank w') : Category.element.Skips (w ++ (v ++ w')) := by
  refine ⟨w', hw', fun n c t hn hc => ?_⟩
  have hpos := ho.length_pos
  simp only [List.length_append] at hn
  obtain ⟨n, rfl⟩ : ∃ m, n = m + 1 := Nat.exists_eq_add_one_of_ne_zero (by omega)
  have hskip := hv n (w' ++ c :: t) (by omega) ((Stops.cons hc t).append hw')
  rw [List.append_assoc, List.append_assoc, ← skipValue_skipBlank, skipBlank_append hw,
    skipValue_skipBlank, hskip]

theorem skips_lastElement {e : Text} (he : Category.element.Skips e) :
    Category.elements.Skips e := by
  obtain ⟨w, hw, he⟩ := he
  intro n t hn
  obtain ⟨n, rfl⟩ : ∃ m, n = m + 1 := Nat.exists_eq_add_one_of_ne_zero (by omega)
  exact skipElements_end hw (he n ']' t (by omega) (.inr (.inl rfl)))

theorem skips_moreElements {e r : Text} (he : Category.element.Skips e)
    (hr : Category.elements.Skips r) : Category.elements.Skips (e ++ ',' :: r) := by
  obtain ⟨w, hw, he⟩ := he
  intro n t hn
  rw [List.length_append, List.length_cons] at hn
  obtain ⟨n, rfl⟩ : ∃ m, n = m + 1 := Nat.exists_eq_add_one_of_ne_zero (by omega)
  have hnext := skipElements_next hw (he n ',' (r ++ ']' :: t) (by omega) (.inl rfl))
  rw [List.append_assoc, List.cons_append, hnext]
  exact hr n t (by omega)

theorem skips_member {w k w' e : Text} (hw : Blank w) (hk : IsString k) (hw' : Blank w')
    (he : Category.element.Skips e) :
    Category.member.Skips (w ++ '"' :: (k ++ '"' :: (w' ++ ':' :: e))) := by
  obtain ⟨u, hu, he⟩ := he
  intro n t hn
  simp only [List.length_append, List.length_cons] at hn
  simp only [List.append_assoc, List.cons_append]
  exact ⟨skipMembers_next hw hk hw' hu (he n ',' t (by omega) (.inl rfl)),
    skipMembers_end hw hk hw' hu (he n '}' t (by omega) (.inr (.inr rfl)))⟩

theorem skips_lastMember {m : Text} (hm : Category.member.Skips m) : Category.members.Skips m := by
  intro n t hn
  obtain ⟨n, rfl⟩ : ∃ m, n = m + 1 := Nat.exists_eq_add_one_of_ne_zero (by omega)
  exact (hm n t (by omega)).2

theorem skips_moreMembers {m r : Text} (hm : Category.member.Skips m)
    (hr : Category.members.Skips r) : Category.members.Skips (m ++ ',' :: r) := by
  intro n t hn
  rw [List.length_append, List.length_cons] at hn
  obtain ⟨n, rfl⟩ : ∃ m, n = m + 1 := Nat.exists_eq_add_one_of_ne_zero (by omega)
  rw [List.append_assoc, List.cons_append, (hm n _ (by omega)).1]
  exact hr n t (by omega)

theorem Derives.skips {k : Category} {t : Text} (h : Derives k t) : k.Skips t := by
  induction h with
  | null | yes | no => exact fun _ _ _ _ => rfl
  | amount ha => exact skips_amount ha
  | negative ha => exact fun _ _ _ ht => ha.skip ht
  | string hk => exact skips_string hk
  | emptyArray hw => exact skips_emptyArray hw
  | array hr ih => exact skips_array hr.opens ih
  | emptyObject hw => exact skips_emptyObject hw
  | object hr ih => exact skips_object hr.opens ih
  | element hw hv hw' ih => exact skips_element hw hv.opens ih hw'
  | lastElement _ ih => exact skips_lastElement ih
  | moreElements _ _ ihe ihr => exact skips_moreElements ihe ihr
  | member hw hk hw' _ ih => exact skips_member hw hk hw' ih
  | lastMember _ ih => exact skips_lastMember ih
  | moreMembers _ _ ihm ihr => exact skips_moreMembers ihm ihr

end Json

end ModuleLens
