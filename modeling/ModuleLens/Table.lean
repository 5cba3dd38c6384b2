/-! Finite maps as lists of pairs, with one pair a key. -/

namespace ModuleLens

structure Table (κ α : Type) where
  entries : List (κ × α) := []

namespace Table

variable {κ α : Type} [DecidableEq κ]

def get? (t : Table κ α) (key : κ) : Option α := (t.entries.find? fun e => e.1 = key).map Prod.snd

def contains (t : Table κ α) (key : κ) : Bool := t.entries.any fun e => e.1 = key

def erase (t : Table κ α) (key : κ) : Table κ α := ⟨t.entries.filter fun e => e.1 ≠ key⟩

def replace (key : κ) (value : α) : List (κ × α) → List (κ × α)
  | [] => []
  | e :: es => if e.1 = key then (key, value) :: es else e :: replace key value es

def insert (t : Table κ α) (key : κ) (value : α) : Table κ α :=
  if t.contains key then ⟨replace key value t.entries⟩ else ⟨(key, value) :: t.entries⟩

theorem isSome_get? (t : Table κ α) (key : κ) : (t.get? key).isSome = t.contains key := by
  rw [get?, contains, Option.isSome_map]
  induction t.entries with
  | nil => rfl
  | cons e es ih => by_cases h : e.1 = key <;> simp [h, ih]

theorem get?_erase (t : Table κ α) (key k : κ) :
    (t.erase key).get? k = if k = key then none else t.get? k := by
  obtain ⟨entries⟩ := t
  simp only [get?, erase]
  induction entries with
  | nil => simp
  | cons e es ih =>
    by_cases h : e.1 = key <;> by_cases hk : e.1 = k <;> by_cases hkk : k = key <;>
      simp_all

theorem find?_replace {key : κ} {value : α} {entries : List (κ × α)}
    (h : entries.any (fun e => e.1 = key) = true) (k : κ) :
    ((replace key value entries).find? fun e => e.1 = k).map Prod.snd =
      if k = key then some value else (entries.find? fun e => e.1 = k).map Prod.snd := by
  induction entries with
  | nil => exact nomatch h
  | cons e es ih =>
    by_cases he : e.1 = key
    · by_cases hk : k = key
      · simp [replace, he, hk]
      · simp [replace, he, hk, Ne.symm hk]
    · have hes : es.any (fun e => e.1 = key) = true := by simpa [he] using h
      by_cases hk : e.1 = k
      · subst hk
        simp [replace, he]
      · simpa [replace, he, hk] using ih hes

theorem get?_insert (t : Table κ α) (key k : κ) (value : α) :
    (t.insert key value).get? k = if k = key then some value else t.get? k := by
  by_cases h : t.contains key
  · simp only [insert, h, if_true]
    exact find?_replace h k
  · by_cases hk : k = key
    · simp [insert, h, get?, hk]
    · simp [insert, h, get?, hk, Ne.symm hk]

omit [DecidableEq κ]

def filter (t : Table κ α) (keep : κ → α → Bool) : Table κ α :=
  ⟨t.entries.filter fun e => keep e.1 e.2⟩

def map {β : Type} (f : α → β) (t : Table κ α) : Table κ β :=
  ⟨t.entries.map fun e => (e.1, f e.2)⟩

def keys (t : Table κ α) : List κ := t.entries.map Prod.fst

def size (t : Table κ α) : Nat := t.entries.length

def isEmpty (t : Table κ α) : Bool := t.entries.isEmpty

end Table

end ModuleLens
