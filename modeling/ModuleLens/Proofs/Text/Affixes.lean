import Mathlib.Data.List.TakeWhile
import ModuleLens.Import.Edge

/-! What stands at the ends of a text.  A prefix or a suffix is dropped exactly if the text has it.
A string literal is a text between delimiters: double quotes, three or one, and number signs around
them.  Between three quotes every text is read back, whatever it begins and ends with; between one,
every text that does not make three of them. -/

namespace ModuleLens

namespace Text

theorem dropPrefix?_append (p t : Text) : dropPrefix? p (p ++ t) = some t := by
  induction p with
  | nil => cases t <;> rfl
  | cons c p ih => simpa [dropPrefix?] using ih

theorem dropPrefix?_eq_some {p t rest : Text} : dropPrefix? p t = some rest ↔ t = p ++ rest := by
  constructor
  · intro h
    induction p generalizing t with
    | nil =>
      rw [dropPrefix?] at h
      exact Option.some.inj h
    | cons c p ih =>
      cases t with
      | nil => cases h
      | cons d t =>
        rw [dropPrefix?] at h
        split at h
        · next hc => rw [hc, ih h, List.cons_append]
        · cases h
  · rintro rfl
    exact dropPrefix?_append p rest

theorem isSome_dropPrefix? {p t : Text} : (dropPrefix? p t).isSome ↔ p <+: t := by
  rw [Option.isSome_iff_exists]
  exact exists_congr fun rest => dropPrefix?_eq_some.trans eq_comm

theorem dropSuffix?_append (p t : Text) : dropSuffix? p (t ++ p) = some t := by
  rw [dropSuffix?, List.reverse_append, dropPrefix?_append, Option.map_some, List.reverse_reverse]

theorem dropSuffix?_eq_some {p t rest : Text} : dropSuffix? p t = some rest ↔ t = rest ++ p := by
  constructor
  · intro h
    obtain ⟨back, hback, rfl⟩ := Option.map_eq_some_iff.1 h
    rw [← List.reverse_inj, dropPrefix?_eq_some.1 hback, List.reverse_append, List.reverse_reverse]
  · rintro rfl
    exact dropSuffix?_append p rest

theorem length_dropSuffix? (p t : Text) : ((dropSuffix? p t).getD t).length ≤ t.length := by
  cases h : dropSuffix? p t with
  | none => exact Nat.le_refl _
  | some rest =>
    have ht := congrArg List.length (dropSuffix?_eq_some.1 h)
    rw [List.length_append] at ht
    exact Nat.le.intro ht.symm

/-- A text between so many double quotes, and so many number signs around them. -/
def enclosed (signs quotes : Nat) (t : Text) : Text :=
  let ends := List.replicate quotes '"'
  List.replicate signs '#' ++ (ends ++ t ++ ends) ++ List.replicate signs '#'

theorem trimSigns_append (m n : Nat) (t : Text) :
    trimSigns (List.replicate m '#' ++ t ++ List.replicate n '#') = trimSigns t := by
  have hsigns (k : Nat) : ∀ c ∈ List.replicate k '#', (c == '#') = true := by simp
  rw [trimSigns, trimSigns, List.append_assoc, List.dropWhile_append_of_pos (hsigns m),
    List.dropWhile_append]
  split
  · next h => rw [List.isEmpty_iff.1 h, List.dropWhile_eq_nil_iff.2 (hsigns n)]
  · rw [List.reverse_append, List.reverse_replicate, List.dropWhile_append_of_pos (hsigns n)]

theorem trimSigns_quoted (t : Text) : trimSigns ('"' :: t ++ ['"']) = '"' :: t ++ ['"'] := by
  have hquote : ('"' == '#') = false := by decide
  simp [trimSigns, hquote]

theorem literalBody_signs (n : Nat) (t : Text) :
    literalBody (List.replicate n '#' ++ t ++ List.replicate n '#') = literalBody t := by
  rw [literalBody, literalBody, trimSigns_append]

theorem literalBody_triple (t : Text) :
    literalBody (['"', '"', '"'] ++ t ++ ['"', '"', '"']) = t := by
  have htrim := trimSigns_quoted (['"', '"'] ++ t ++ ['"', '"'])
  simp only [List.cons_append, List.append_assoc, List.nil_append] at htrim
  have hopen : dropPrefix? ['"', '"', '"'] (['"', '"', '"'] ++ (t ++ ['"', '"', '"'])) =
      some (t ++ ['"', '"', '"']) := dropPrefix?_append _ _
  rw [literalBody, List.append_assoc]
  simp only [List.cons_append, List.nil_append] at hopen ⊢
  rw [htrim]
  simp only [hopen, dropSuffix?_append, Option.getD_some]

/-- Whether the quote before a text makes three with what comes after it. -/
theorem triple_opens_iff (t : Text) :
    ['"', '"', '"'] <+: '"' :: t ++ ['"'] ↔ ['"', '"'] <+: t ∨ t = ['"'] := by
  rcases t with _ | ⟨c, _ | ⟨d, t⟩⟩
  · simp
  · simp [eq_comm]
  · simp

/-- What stands between two quotes is read back unless its first quotes are taken for delimiters;
then some of it is lost. -/
theorem literalBody_single (t : Text) :
    literalBody ('"' :: t ++ ['"']) = t ↔ ¬ ['"', '"'] <+: t ∧ t ≠ ['"'] := by
  rw [← not_or, ← triple_opens_iff, literalBody, trimSigns_quoted]
  cases hopen : dropPrefix? ['"', '"', '"'] ('"' :: t ++ ['"']) with
  | none =>
    have hnot : ¬ ['"', '"', '"'] <+: '"' :: t ++ ['"'] := by
      rw [← isSome_dropPrefix?, hopen]
      decide
    have hone : dropPrefix? ['"'] (['"'] ++ (t ++ ['"'])) = some (t ++ ['"']) :=
      dropPrefix?_append _ _
    refine iff_of_true ?_ hnot
    simp only [List.cons_append, List.nil_append] at hone ⊢
    simp only [hone, dropSuffix?_append, Option.getD_some]
  | some rest =>
    have hlost : rest.length < t.length := by
      have ht := congrArg List.length (dropPrefix?_eq_some.1 hopen)
      simp only [List.length_append, List.length_cons, List.length_nil] at ht
      omega
    have hopens : ['"', '"', '"'] <+: '"' :: t ++ ['"'] :=
      isSome_dropPrefix?.1 (Option.isSome_iff_exists.2 ⟨rest, hopen⟩)
    refine iff_of_false (fun h => ?_) (not_not_intro hopens)
    have hle := length_dropSuffix? ['"', '"', '"'] rest
    rw [show (dropSuffix? ['"', '"', '"'] rest).getD rest = t from h] at hle
    exact Nat.not_lt_of_le hle hlost

/-- Quoting is undone by reading.  Between three quotes this holds of every text, and between one
exactly of those that do not begin with two quotes and are not a quote alone. -/
theorem literals_read_back (signs : Nat) (t : Text) :
    literalBody (enclosed signs 3 t) = t ∧
      (literalBody (enclosed signs 1 t) = t ↔ ¬ ['"', '"'] <+: t ∧ t ≠ ['"']) := by
  rw [enclosed, enclosed, literalBody_signs, literalBody_signs]
  exact ⟨literalBody_triple t, literalBody_single t⟩

example : literalBody (enclosed 2 1 "#\"#".toList) = "#\"#".toList ∧
    literalBody (enclosed 0 1 "\"\"a".toList) = "a\"".toList := by
  decide

end Text

end ModuleLens
