import Mathlib.Data.List.Induction
import ModuleLens.Proofs.Delta
import ModuleLens.Text.Position

/-! Lines of a text and the positions along it.  Reading a text moves the position on; a line starts
where the position is at its first code unit.  The line that is found by counting line feeds is the
one that splitting the text gives. -/

namespace ModuleLens

theorem Text.unitWidth_pos (c : Char) : 0 < Text.unitWidth c := by
  rw [unitWidth]
  split <;> decide

theorem Text.unitWidth_le (c : Char) : unitWidth c ≤ 2 := by
  rw [unitWidth]
  split <;> decide

theorem Text.unitWidth_le_utf8Size (c : Char) : unitWidth c ≤ c.utf8Size := by
  rw [unitWidth]
  split
  · exact c.utf8Size_pos
  · next h =>
    have hc : c.toNat = c.val.toNat := rfl
    have h₁ : ¬ c.val ≤ 0x7f := by rw [UInt32.le_iff_toNat_le]; simp; omega
    have h₂ : ¬ c.val ≤ 0x7ff := by rw [UInt32.le_iff_toNat_le]; simp; omega
    have h₃ : ¬ c.val ≤ 0xffff := by rw [UInt32.le_iff_toNat_le]; simp; omega
    simp [Char.utf8Size, h₁, h₂, h₃]

namespace Position

theorem before_iff {p q : Position} :
    p.before q ↔ p.line < q.line ∨ p.line = q.line ∧ p.character ≤ q.character := by
  simp [before]

theorem before_refl (p : Position) : p.before p :=
  before_iff.2 (.inr ⟨rfl, Nat.le_refl _⟩)

theorem before_trans {p q r : Position} (h : p.before q) (h' : q.before r) : p.before r := by
  rw [before_iff] at *
  omega

theorem before_of_not {p q : Position} (h : ¬ p.before q) : q.before p := by
  rw [before_iff] at *
  omega

theorem before_advance (p : Position) (c : Char) : p.before (p.advance c) := by
  rw [before_iff, advance]
  split
  · exact .inl (Nat.lt_succ_self _)
  · exact .inr ⟨rfl, Nat.le_add_right _ _⟩

theorem not_advance_before (p : Position) (c : Char) : ¬ (p.advance c).before p := by
  have hw := Text.unitWidth_pos c
  rw [before_iff, advance]
  split
  · simp
  · simp only
    omega

theorem before_foldl (p : Position) (s : Text) : p.before (s.foldl advance p) := by
  induction s generalizing p with
  | nil => exact before_refl p
  | cons c s ih => exact before_trans (before_advance p c) (ih _)

theorem foldl_line {line : Text} (h : '\n' ∉ line) (p : Position) :
    line.foldl advance p = ⟨p.line, p.character + line.unitLength⟩ := by
  induction line generalizing p with
  | nil => rfl
  | cons c line ih =>
    have hc : c ≠ '\n' := fun hc => h (hc ▸ List.mem_cons_self)
    rw [List.foldl_cons, ih fun hm => h (List.mem_cons_of_mem c hm)]
    simp only [advance, hc, if_false, Text.unitLength_cons, Nat.add_assoc]

theorem ofText_append (s t : Text) : ofText (s ++ t) = t.foldl advance (ofText s) :=
  List.foldl_append

theorem ofText_before {s t : Text} (h : s <+: t) : (ofText s).before (ofText t) := by
  obtain ⟨rest, rfl⟩ := h
  rw [ofText_append]
  exact before_foldl _ rest

theorem ofText_not_before {s rest : Text} (h : rest ≠ []) :
    ¬ (ofText (s ++ rest)).before (ofText s) := by
  obtain ⟨c, more, rfl⟩ := List.exists_cons_of_ne_nil h
  intro hb
  rw [ofText_append, List.foldl_cons] at hb
  exact not_advance_before _ c (before_trans (before_foldl _ more) hb)

theorem exists_lineStart (s : Text) :
    ∃ lead line, s = lead ++ line ∧ '\n' ∉ line ∧ ofText lead = ⟨(ofText s).line, 0⟩ := by
  induction s using List.reverseRecOn with
  | nil => exact ⟨[], [], rfl, List.not_mem_nil, rfl⟩
  | append_singleton s c ih =>
    by_cases hc : c = '\n'
    · refine ⟨s ++ [c], [], (List.append_nil _).symm, List.not_mem_nil, ?_⟩
      simp [ofText_append, advance, hc]
    · obtain ⟨lead, line, rfl, hn, hl⟩ := ih
      refine ⟨lead, line ++ [c], List.append_assoc _ _ _, ?_, ?_⟩
      · simpa [hn] using Ne.symm hc
      · simp only [ofText_append _ [c], List.foldl_cons, List.foldl_nil, advance, hc, if_false, hl]

theorem line_le_byteLength (s : Text) : (ofText s).line + (ofText s).character ≤ s.byteLength := by
  induction s using List.reverseRecOn with
  | nil => exact Nat.le_refl 0
  | append_singleton s c ih =>
    have hw := Text.unitWidth_le_utf8Size c
    have hc := c.utf8Size_pos
    simp only [ofText_append, List.foldl_cons, List.foldl_nil, Text.byteLength_append,
      Text.byteLength_cons, Text.byteLength_nil, advance]
    split
    · simp only
      omega
    · simp only
      omega

end Position

namespace Text

open Position

variable {t : Text} {p : Position}

theorem lineFrom_append {lead : Text} {n : Nat}
    (h : lead.foldl advance p = ⟨p.line + n, 0⟩) (index : Nat) (rest : Text) :
    lineFrom index (lead ++ rest) n = some (index + lead.length, rest) := by
  induction lead generalizing p n index with
  | nil =>
    have hn : n = 0 := by
      have hl := congrArg Position.line h
      simpa using hl
    subst hn
    simp [lineFrom]
  | cons c lead ih =>
    rw [List.foldl_cons] at h
    have hb := before_foldl (p.advance c) lead
    rw [h, before_iff] at hb
    have hw := unitWidth_pos c
    by_cases hc : c = '\n'
    · simp only [advance, hc, if_true] at h hb
      obtain ⟨m, rfl⟩ : ∃ m, n = m + 1 := ⟨n - 1, by omega⟩
      have hh : lead.foldl advance ⟨p.line + 1, 0⟩ = ⟨p.line + 1 + m, 0⟩ := by
        rw [h]
        congr 1
        omega
      rw [List.cons_append, lineFrom, if_pos hc, ih hh, List.length_cons]
      congr 2
      omega
    · simp only [advance, hc, if_false] at h hb
      obtain ⟨m, rfl⟩ : ∃ m, n = m + 1 := ⟨n - 1, by omega⟩
      have hh := ih (p := ⟨p.line, p.character + unitWidth c⟩) h (index + 1)
      rw [List.cons_append, lineFrom, if_neg hc, hh, List.length_cons]
      congr 2
      omega

theorem exists_of_lineFrom {n index k : Nat} {rest : Text}
    (h : lineFrom index t n = some (k, rest)) :
    ∃ lead, t = lead ++ rest ∧ k = index + lead.length ∧
      ∀ p : Position, (n = 0 → p.character = 0) → lead.foldl advance p = ⟨p.line + n, 0⟩ := by
  induction t generalizing n index with
  | nil =>
    cases n with
    | zero =>
      cases h
      exact ⟨[], rfl, rfl, fun p hp => congrArg (Position.mk p.line) (hp rfl)⟩
    | succ n => cases h
  | cons c t ih =>
    cases n with
    | zero =>
      cases h
      exact ⟨[], rfl, rfl, fun p hp => congrArg (Position.mk p.line) (hp rfl)⟩
    | succ n =>
      rw [lineFrom] at h
      by_cases hc : c = '\n'
      · rw [if_pos hc] at h
        obtain ⟨lead, rfl, rfl, hl⟩ := ih h
        refine ⟨c :: lead, rfl, by rw [List.length_cons]; omega, fun p _ => ?_⟩
        rw [List.foldl_cons, advance, if_pos hc, hl _ fun _ => rfl]
        congr 1
        simp only
        omega
      · rw [if_neg hc] at h
        obtain ⟨lead, rfl, rfl, hl⟩ := ih h
        refine ⟨c :: lead, rfl, by rw [List.length_cons]; omega, fun p _ => ?_⟩
        rw [List.foldl_cons, advance, if_neg hc]
        exact hl _ fun hn => absurd hn (Nat.succ_ne_zero n)

theorem lineFrom_eq_some {n k : Nat} {rest : Text} :
    lineFrom 0 t n = some (k, rest) ↔
      ∃ lead, t = lead ++ rest ∧ k = lead.length ∧ ofText lead = ⟨n, 0⟩ := by
  constructor
  · intro h
    obtain ⟨lead, ht, hk, hl⟩ := exists_of_lineFrom h
    have hl := hl ⟨0, 0⟩ fun _ => rfl
    exact ⟨lead, ht, by simpa using hk, by simpa [ofText] using hl⟩
  · rintro ⟨lead, rfl, rfl, hl⟩
    have hfold : lead.foldl advance ⟨0, 0⟩ = ⟨0 + n, 0⟩ := by simpa [ofText] using hl
    simpa using lineFrom_append hfold 0 rest

theorem lines_getElem? (t : Text) (n : Nat) : t.lines[n]? = t.line? n := by
  induction t generalizing n with
  | nil => cases n <;> rfl
  | cons c t ih =>
    rw [lines, List.splitOn_cons_eq_if_modifyHead]
    have hnext (m : Nat) : line? t m = (lineFrom 1 t m).map fun l => firstLine l.2 := by
      rw [lineFrom_eq 1, Option.map_map]
      rfl
    by_cases hc : c = '\n'
    · rw [if_pos (beq_iff_eq.2 hc)]
      cases n with
      | zero => simp [line?, lineFrom, firstLine, hc]
      | succ n =>
        rw [List.getElem?_cons_succ, line?, lineFrom, if_pos hc]
        exact (ih n).trans (hnext n)
    · rw [if_neg fun h => hc (beq_iff_eq.1 h)]
      cases n with
      | zero =>
        have hh := ih 0
        rw [lines] at hh
        simp [List.getElem?_modifyHead_zero, hh, line?, lineFrom, firstLine, hc]
      | succ n =>
        rw [line?, lineFrom, if_neg hc]
        have hh := (ih (n + 1)).trans (hnext (n + 1))
        rw [lines] at hh
        rw [← hh]
        cases List.splitOn '\n' t <;> simp

theorem length_lines (t : Text) : t.lines.length = t.lineCount := by
  induction t with
  | nil => rfl
  | cons c t ih =>
    rw [lines, lineCount] at *
    rw [List.splitOn_cons_eq_if_modifyHead]
    by_cases hc : c = '\n' <;> simp [hc, ih]

theorem firstLine_prefix (t : Text) : firstLine t <+: t := List.takeWhile_prefix _

theorem not_mem_firstLine (t : Text) : '\n' ∉ firstLine t := by
  intro h
  have hall : ((firstLine t).all (· != '\n')) = true := List.all_takeWhile
  simpa using List.all_eq_true.1 hall _ h

theorem firstLine_append {line : Text} (h : '\n' ∉ line) (rest : Text) :
    firstLine (line ++ rest) = line ++ firstLine rest := by
  refine List.takeWhile_append_of_pos fun c hc => ?_
  simpa using fun hcn : c = '\n' => h (hcn ▸ hc)

theorem unitLength_append (s t : Text) : unitLength (s ++ t) = unitLength s + unitLength t := by
  rw [unitLength, List.foldl_append, foldl_add]
  rfl

/-- Counting code units off a line ends between two scalars, or one unit into a pair. -/
theorem takeUnits_cases {s : Text} {u : Nat} (h : u ≤ unitLength s) :
    ∃ rest, s = takeUnits s u ++ rest ∧
      (unitLength (takeUnits s u) = u ∨
        u = unitLength (takeUnits s u) + 1 ∧ ∃ c ∈ rest.head?, unitWidth c = 2) := by
  induction s generalizing u with
  | nil =>
    have hu : u = 0 := by simpa using h
    exact ⟨[], rfl, .inl hu.symm⟩
  | cons c s ih =>
    rw [unitLength_cons] at h
    by_cases hc : unitWidth c ≤ u
    · obtain ⟨rest, hs, hu⟩ := ih (u := u - unitWidth c) (by omega)
      refine ⟨rest, ?_, ?_⟩
      · rw [takeUnits, if_pos hc, List.cons_append, ← hs]
      · rw [takeUnits, if_pos hc, unitLength_cons]
        rcases hu with hu | ⟨hu, hpair⟩
        · exact .inl (by omega)
        · exact .inr ⟨by omega, hpair⟩
    · have hle := unitWidth_le c
      refine ⟨c :: s, by rw [takeUnits, if_neg hc, List.nil_append], ?_⟩
      rw [takeUnits, if_neg hc, unitLength_nil]
      by_cases hu : u = 0
      · exact .inl hu.symm
      · exact .inr ⟨by omega, c, rfl, by omega⟩

theorem takeUnits_append (s rest : Text) : takeUnits (s ++ rest) (unitLength s) = s := by
  induction s with
  | nil =>
    cases rest with
    | nil => rfl
    | cons c rest =>
      have hc : ¬ unitWidth c ≤ 0 := by
        have := unitWidth_pos c
        omega
      rw [List.nil_append, unitLength_nil, takeUnits, if_neg hc]
  | cons c s ih =>
    have hc : unitWidth c ≤ unitWidth c + unitLength s := Nat.le_add_right _ _
    simp only [List.cons_append, unitLength_cons, takeUnits, hc, if_true, Nat.add_sub_cancel_left]
    rw [ih]

theorem takeUnits_append_pair {c : Char} (hc : unitWidth c = 2) (s rest : Text) :
    takeUnits (s ++ c :: rest) (unitLength s + 1) = s := by
  induction s with
  | nil => simp [takeUnits, hc]
  | cons d s ih =>
    have hd : unitWidth d ≤ unitWidth d + unitLength s + 1 := by omega
    have hsub : unitWidth d + unitLength s + 1 - unitWidth d = unitLength s + 1 := by omega
    simp only [List.cons_append, unitLength_cons, takeUnits, hd, if_true, hsub]
    rw [ih]

theorem firstLine_cons_pair {c : Char} (hc : unitWidth c = 2) (rest : Text) :
    firstLine (c :: rest) = c :: firstLine rest := by
  have hn : c ≠ '\n' := by
    rintro rfl
    exact absurd hc (by decide)
  simp [firstLine, hn]

end Text

end ModuleLens
