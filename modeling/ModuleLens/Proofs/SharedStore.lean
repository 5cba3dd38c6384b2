import ModuleLens.SharedStore

/-! What the operations of a shared store do to its slots. -/

namespace ModuleLens

namespace Table

variable {κ α : Type} [DecidableEq κ]

def Distinct (t : Table κ α) : Prop := t.keys.Nodup

omit [DecidableEq κ] in
theorem distinct_empty : Distinct ({} : Table κ α) := List.nodup_nil

theorem mem_keys {t : Table κ α} {key : κ} : key ∈ t.keys ↔ (t.get? key).isSome := by
  rw [isSome_get?, keys, contains]
  simp

theorem keys_replace (key : κ) (value : α) (entries : List (κ × α)) :
    (replace key value entries).map Prod.fst = entries.map Prod.fst := by
  induction entries with
  | nil => rfl
  | cons e es ih =>
    rw [replace]
    split
    · next h => simp [h]
    · simp [ih]

theorem Distinct.insert {t : Table κ α} (h : t.Distinct) (key : κ) (value : α) :
    (t.insert key value).Distinct := by
  rw [Table.insert]
  split
  · rw [Distinct, keys, keys_replace]
    exact h
  · next hc =>
    refine List.nodup_cons.2 ⟨fun hm => hc ?_, h⟩
    obtain ⟨e, he, hk⟩ := List.mem_map.1 hm
    exact List.any_eq_true.2 ⟨e, he, by simpa using hk⟩

omit [DecidableEq κ] in
theorem Distinct.filter {t : Table κ α} (h : t.Distinct) (keep : κ → α → Bool) :
    (t.filter keep).Distinct :=
  h.sublist (List.filter_sublist.map _)

theorem Distinct.erase {t : Table κ α} (h : t.Distinct) (key : κ) : (t.erase key).Distinct :=
  h.sublist (List.filter_sublist.map _)

theorem get?_filter {t : Table κ α} (h : t.Distinct) (keep : κ → α → Bool) (k : κ) :
    (t.filter keep).get? k = (t.get? k).filter (keep k) := by
  obtain ⟨entries⟩ := t
  simp only [get?, filter]
  induction entries with
  | nil => rfl
  | cons e es ih =>
    have hd := List.nodup_cons.1 h
    have hi := ih hd.2
    by_cases hk : e.1 = k
    · subst hk
      by_cases hp : keep e.1 e.2
      · simp [Option.filter, hp]
      · have hf : (es.filter fun a => keep a.1 a.2).find? (fun a => a.1 = e.1) = none := by
          refine List.find?_eq_none.2 fun a ha hae => hd.1 (List.mem_map.2 ⟨a, ?_, ?_⟩)
          · exact (List.mem_filter.1 ha).1
          · simpa using hae
        simp [Option.filter, hp, hf]
    · by_cases hp : keep e.1 e.2 <;> simpa [hp, hk] using hi

theorem get?_map {β : Type} (t : Table κ α) (f : α → β) (k : κ) :
    (t.map f).get? k = (t.get? k).map f := by
  obtain ⟨entries⟩ := t
  simp only [get?, map]
  induction entries with
  | nil => rfl
  | cons e es ih => by_cases h : e.1 = k <;> simp_all

end Table

namespace SharedStore

variable {κ ν : Type} [DecidableEq κ]

theorem claim_eq_found {s : SharedStore κ ν} {key : κ} {value : ν} :
    s.claim key = .found value ↔ s.get? key = some (.ready value) := by
  rw [claim]
  split <;> simp_all

theorem claim_eq_busy {s : SharedStore κ ν} {key : κ} :
    s.claim key = .busy ↔ s.get? key = some .pending := by
  rw [claim]
  split <;> simp_all

theorem claim_eq_granted {s t : SharedStore κ ν} {key : κ} :
    s.claim key = .granted t ↔ s.get? key = none ∧ t = s.insert key .pending := by
  rw [claim]
  split
  · next h => simp [h]
  · next h => simp [h]
  · next h => simpa [h] using eq_comm

theorem value?_eq_some {s : SharedStore κ ν} {key : κ} {value : ν} :
    s.value? key = some value ↔ s.get? key = some (.ready value) := by
  rw [value?]
  split <;> simp_all

theorem get?_publish (s : SharedStore κ ν) (key k : κ) (value : ν) :
    (s.publish key value).get? k = if k = key then some (.ready value) else s.get? k :=
  Table.get?_insert s key k (.ready value)

theorem get?_abandon (s : SharedStore κ ν) (key k : κ) :
    (s.abandon key).get? k = if k = key then none else s.get? k :=
  Table.get?_erase s key k

theorem get?_remove_eq_pending {s : SharedStore κ ν} {key k : κ} :
    (s.remove key).2.get? k = some .pending ↔ s.get? k = some .pending := by
  by_cases hk : k = key
  · subst hk
    rcases h : s.get? k with _ | _ | value <;> simp [remove, value?, h, Table.get?_erase]
  · simp only [remove]
    split <;> simp [Table.get?_erase, hk]

theorem get?_remove_of_ready {s : SharedStore κ ν} {k : κ} {value : ν}
    (h : s.get? k = some (.ready value)) (key : κ) :
    (s.remove key).2.get? k = some (.ready value) ∨ (s.remove key).2.get? k = none := by
  by_cases hk : k = key
  · subst hk
    simp [remove, value?, h, Table.get?_erase]
  · left
    simp only [remove]
    split <;> simp [Table.get?_erase, hk, h]

theorem get?_prune_eq_ready {s : SharedStore κ ν} (h : Table.Distinct s) {keep : κ → ν → Bool}
    {key : κ} {value : ν} :
    (s.prune keep).get? key = some (.ready value) ↔
      s.get? key = some (.ready value) ∧ keep key value = true := by
  rw [prune, Table.get?_filter h, Option.filter_eq_some_iff]

theorem get?_prune_eq_pending {s : SharedStore κ ν} (h : Table.Distinct s) {keep : κ → ν → Bool}
    {key : κ} : (s.prune keep).get? key = some .pending ↔ s.get? key = some .pending := by
  rw [prune, Table.get?_filter h, Option.filter_eq_some_iff]
  simp

theorem get?_prune_of_ready {s : SharedStore κ ν} (h : Table.Distinct s) {key : κ} {value : ν}
    (hk : s.get? key = some (.ready value)) (keep : κ → ν → Bool) :
    (s.prune keep).get? key = some (.ready value) ∨ (s.prune keep).get? key = none := by
  rw [prune, Table.get?_filter h, hk]
  by_cases hp : keep key value <;> simp [Option.filter, hp]

end SharedStore

end ModuleLens
