import Mathlib.Data.List.Flatten
import Mathlib.Data.List.Nodup
import Mathlib.Data.List.Perm.Subperm

/-! Lists of threads, of parts and of nodes: one element replaced by another, what is collected from
a part of a list, and where an element comes from in what is collected without a repetition. -/

namespace ModuleLens

variable {α β : Type}

theorem forall_mem_replace {P : α → Prop} {pre post : List α} {a a' : α}
    (h : ∀ b ∈ pre ++ a :: post, P b) (ha : P a') : ∀ b ∈ pre ++ a' :: post, P b := by
  simp only [List.forall_mem_append, List.forall_mem_cons] at h ⊢
  exact ⟨h.1, ha, h.2.2⟩

theorem filterMap_cons_toList (f : α → Option β) (a : α) (as : List α) :
    (a :: as).filterMap f = (f a).toList ++ as.filterMap f := by
  rw [List.filterMap_cons]
  cases f a <;> rfl

theorem filter_append_subperm {p q : α → Bool} (h : ∀ a, q a → p a = false)
    (l : List α) : (l.filter p ++ l.filter q).Subperm l := by
  have hq : (l.filter q).Sublist (l.filter fun a => !p a) :=
    List.monotone_filter_right _ fun a ha => by simp [h a ha]
  exact ((List.Sublist.refl (l.filter p)).append hq).subperm.trans
    (List.filter_append_perm p l).subperm

theorem subperm_flatMap {l l' : List α} (h : l.Subperm l') (f : α → List β) :
    (l.flatMap f).Subperm (l'.flatMap f) := by
  obtain ⟨m, hm, hs⟩ := h
  exact ⟨m.flatMap f, hm.flatMap_right f, hs.flatMap f⟩

theorem flatMap_subperm {l : List α} {f g : α → List β}
    (h : ∀ a ∈ l, (f a).Subperm (g a)) : (l.flatMap f).Subperm (l.flatMap g) := by
  induction l with
  | nil => exact List.nil_subperm
  | cons a l ih =>
    rw [List.flatMap_cons, List.flatMap_cons]
    exact (h a List.mem_cons_self).append (ih fun b hb => h b (List.mem_cons_of_mem a hb))

/-- What is in two of some lists without a repetition is in one and the same. -/
theorem place_unique {f : α → List β} {l : List α} (h : (l.flatMap f).Nodup)
    {i j : Nat} {a b : α} (hi : l[i]? = some a) (hj : l[j]? = some b) {k : β} (ha : k ∈ f a)
    (hb : k ∈ f b) : i = j := by
  have hp := List.pairwise_iff_getElem.1 (List.nodup_flatMap.1 h).2
  obtain ⟨hi', rfl⟩ := List.getElem?_eq_some_iff.1 hi
  obtain ⟨hj', rfl⟩ := List.getElem?_eq_some_iff.1 hj
  rcases Nat.lt_trichotomy i j with hlt | heq | hlt
  · exact (hp i j hi' hj' hlt ha hb).elim
  · exact heq
  · exact (hp j i hj' hi' hlt hb ha).elim

theorem eq_of_nodup_flatMap {f : α → List β} {l : List α} (h : (l.flatMap f).Nodup) {a b : α}
    (ha : a ∈ l) (hb : b ∈ l) {k : β} (hka : k ∈ f a) (hkb : k ∈ f b) : a = b := by
  obtain ⟨i, hi⟩ := List.mem_iff_getElem?.1 ha
  obtain ⟨j, hj⟩ := List.mem_iff_getElem?.1 hb
  have hij := place_unique h hi hj hka hkb
  subst hij
  exact Option.some.inj (hi.symm.trans hj)

end ModuleLens
