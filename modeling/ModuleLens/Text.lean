/-! Texts and their measures.  A text is a list of Unicode scalar values; it is counted in
scalars, in UTF-8 bytes or in UTF-16 code units, and cut at byte offsets.  Lines end at a line
feed and nowhere else. -/

namespace ModuleLens

abbrev Text := List Char

namespace Text

/-- The number of UTF-16 code units of a scalar. -/
def unitWidth (c : Char) : Nat := if c.toNat < 0x10000 then 1 else 2

def same : Text → Text → Bool
  | [], [] => true
  | c :: s, d :: t => c == d && same s t
  | _, _ => false

theorem same_iff {s t : Text} : same s t = true ↔ s = t := by
  induction s generalizing t with
  | nil => cases t <;> simp [same]
  | cons c s ih => cases t <;> simp [same, ih]

instance (priority := high) : DecidableEq Text := fun _ _ => decidable_of_iff _ same_iff

def byteLength (t : Text) : Nat := t.foldl (fun n c => n + c.utf8Size) 0

def unitLength (t : Text) : Nat := t.foldl (fun n c => n + unitWidth c) 0

theorem foldl_add (f : Char → Nat) (t : Text) (n : Nat) :
    t.foldl (fun n c => n + f c) n = n + t.foldl (fun n c => n + f c) 0 := by
  induction t generalizing n with
  | nil => rfl
  | cons c t ih =>
    rw [List.foldl_cons, List.foldl_cons, ih, ih (0 + f c)]
    omega

@[simp] theorem byteLength_nil : byteLength [] = 0 := rfl

@[simp] theorem byteLength_cons (c : Char) (t : Text) :
    byteLength (c :: t) = c.utf8Size + byteLength t := by
  rw [byteLength, List.foldl_cons, foldl_add, Nat.zero_add]
  rfl

theorem byteLength_append (s t : Text) : byteLength (s ++ t) = byteLength s + byteLength t := by
  rw [byteLength, List.foldl_append, foldl_add]
  rfl

@[simp] theorem unitLength_nil : unitLength [] = 0 := rfl

@[simp] theorem unitLength_cons (c : Char) (t : Text) :
    unitLength (c :: t) = unitWidth c + unitLength t := by
  rw [unitLength, List.foldl_cons, foldl_add, Nat.zero_add]
  rfl

def takeBytes : Text → Nat → Text
  | [], _ => []
  | c :: t, b => if c.utf8Size ≤ b then c :: takeBytes t (b - c.utf8Size) else []

/-- What follows the first `b` bytes, if a scalar ends there. -/
def dropBytes? : Text → Nat → Option Text
  | t, 0 => some t
  | [], _ + 1 => none
  | c :: t, b + 1 => if c.utf8Size ≤ b + 1 then dropBytes? t (b + 1 - c.utf8Size) else none

def takeBytes? : Text → Nat → Option Text
  | _, 0 => some []
  | [], _ + 1 => none
  | c :: t, b + 1 =>
    if c.utf8Size ≤ b + 1 then (takeBytes? t (b + 1 - c.utf8Size)).map (c :: ·) else none

/-- The longest prefix of at most `u` UTF-16 code units; a code unit inside a pair belongs to no
prefix, so the cut goes before the pair. -/
def takeUnits : Text → Nat → Text
  | [], _ => []
  | c :: t, u => if unitWidth c ≤ u then c :: takeUnits t (u - unitWidth c) else []

theorem takeUnits_prefix (t : Text) (u : Nat) : takeUnits t u <+: t := by
  induction t generalizing u with
  | nil => exact List.prefix_refl _
  | cons c t ih =>
    rw [takeUnits]
    split
    · exact (List.cons_prefix_cons).2 ⟨rfl, ih _⟩
    · exact List.nil_prefix

/-- The start of the scalar that holds byte `b`, or the length of the text beyond its end. -/
def snap (t : Text) (b : Nat) : Nat := byteLength (takeBytes t b)

theorem dropBytes?_of_snap {t : Text} {b : Nat} (h : snap t b = b) :
    dropBytes? t b = some (t.drop (takeBytes t b).length) := by
  induction t generalizing b with
  | nil =>
    have hb : b = 0 := by simpa [snap, takeBytes] using h.symm
    subst hb
    rfl
  | cons c t ih =>
    cases b with
    | zero =>
      have hc : ¬c.utf8Size ≤ 0 := by
        have := c.utf8Size_pos
        omega
      simp [dropBytes?, takeBytes, hc]
    | succ b =>
      by_cases hc : c.utf8Size ≤ b + 1
      · have ht : snap t (b + 1 - c.utf8Size) = b + 1 - c.utf8Size := by
          simp only [snap, takeBytes, hc, if_true, byteLength_cons] at h ⊢
          omega
        simp [dropBytes?, takeBytes, hc, ih ht]
      · simp [snap, takeBytes, hc] at h

theorem dropBytes?_of_snap_ne {t : Text} {b : Nat} (h : snap t b ≠ b) : dropBytes? t b = none := by
  induction t generalizing b with
  | nil =>
    cases b with
    | zero => exact absurd rfl h
    | succ b => rfl
  | cons c t ih =>
    cases b with
    | zero =>
      have hc : ¬c.utf8Size ≤ 0 := by
        have := c.utf8Size_pos
        omega
      exact absurd (by simp [snap, takeBytes, hc]) h
    | succ b =>
      by_cases hc : c.utf8Size ≤ b + 1
      · have ht : snap t (b + 1 - c.utf8Size) ≠ b + 1 - c.utf8Size := by
          simp only [snap, takeBytes, hc, if_true, byteLength_cons] at h ⊢
          omega
        simp [dropBytes?, hc, ih ht]
      · simp [dropBytes?, hc]

theorem snap_le_byteLength (t : Text) (b : Nat) : snap t b ≤ byteLength t := by
  induction t generalizing b with
  | nil => simp [snap, takeBytes]
  | cons c t ih =>
    by_cases hc : c.utf8Size ≤ b
    · have ht := ih (b - c.utf8Size)
      simp only [snap, takeBytes, hc, if_true, byteLength_cons] at ht ⊢
      omega
    · simp [snap, takeBytes, hc]

/-- The text between two byte offsets, if both lie between scalars and are in order. -/
def slice? (t : Text) (start stop : Nat) : Option Text :=
  if start ≤ stop then
    (dropBytes? t start).bind fun rest => takeBytes? rest (stop - start)
  else
    none

def slice (t : Text) (start stop : Nat) : Text := (slice? t start stop).getD []

/-- The lines of a text without their line feeds; there is always a last, perhaps empty, line. -/
def lines (t : Text) : List Text := t.splitOn '\n'

def lineCount (t : Text) : Nat := t.count '\n' + 1

/-- Line `n` and what follows it, and the scalar index at which it starts, for a text that starts at
`index`. -/
def lineFrom (index : Nat) : Text → Nat → Option (Nat × Text)
  | t, 0 => some (index, t)
  | [], _ + 1 => none
  | c :: t, n + 1 => if c = '\n' then lineFrom (index + 1) t n else lineFrom (index + 1) t (n + 1)

theorem lineFrom_eq (index : Nat) (t : Text) (n : Nat) :
    lineFrom index t n = (lineFrom 0 t n).map fun (k, rest) => (index + k, rest) := by
  induction t generalizing index n with
  | nil => cases n <;> simp [lineFrom]
  | cons c t ih =>
    cases n with
    | zero => simp [lineFrom]
    | succ n =>
      by_cases h : c = '\n'
      · rw [lineFrom, lineFrom, if_pos h, if_pos h, ih (index + 1), ih (0 + 1)]
        simp [Option.map_map, Function.comp_def, Nat.add_assoc]
      · rw [lineFrom, lineFrom, if_neg h, if_neg h, ih (index + 1), ih (0 + 1)]
        simp [Option.map_map, Function.comp_def, Nat.add_assoc]

theorem drop_of_lineFrom {t : Text} {n : Nat} {line : Nat × Text}
    (h : lineFrom 0 t n = some line) : t.drop line.1 = line.2 := by
  induction t generalizing n line with
  | nil =>
    cases n with
    | zero =>
      cases h
      rfl
    | succ n => exact nomatch h
  | cons c t ih =>
    cases n with
    | zero =>
      cases h
      rfl
    | succ n =>
      rw [lineFrom, lineFrom_eq (0 + 1), lineFrom_eq (0 + 1)] at h
      split at h <;>
      · obtain ⟨l, hl, rfl⟩ := Option.map_eq_some_iff.1 h
        simpa [Nat.add_comm 1] using ih hl

def firstLine (t : Text) : Text := t.takeWhile (· != '\n')

def line? (t : Text) (n : Nat) : Option Text := (lineFrom 0 t n).map fun (_, rest) => firstLine rest

def commonPrefix : Text → Text → Text
  | c :: s, d :: t => if c = d then c :: commonPrefix s t else []
  | _, _ => []

def dropPrefix? : Text → Text → Option Text
  | [], t => some t
  | _ :: _, [] => none
  | c :: p, d :: t => if c = d then dropPrefix? p t else none

def dropSuffix? (p t : Text) : Option Text := (dropPrefix? p.reverse t.reverse).map List.reverse

end Text

end ModuleLens
