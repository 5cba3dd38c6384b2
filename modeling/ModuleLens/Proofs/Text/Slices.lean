import ModuleLens.Proofs.Text.Positions

/-! Cutting a text at byte offsets.  A cut is made exactly where a scalar starts or the text ends, and
what it gives is what stands before, between or after the offsets. -/

namespace ModuleLens

namespace Text

theorem exists_byteLength_cons (c : Char) (s : Text) : ∃ b, byteLength (c :: s) = b + 1 ∧
    c.utf8Size ≤ b + 1 ∧ b + 1 - c.utf8Size = byteLength s := by
  have hpos := c.utf8Size_pos
  refine ⟨c.utf8Size + byteLength s - 1, ?_, ?_, ?_⟩
  · rw [byteLength_cons]
    omega
  · omega
  · omega

theorem takeBytes?_append (s rest : Text) : takeBytes? (s ++ rest) s.byteLength = some s := by
  induction s with
  | nil => cases rest <;> rfl
  | cons c s ih =>
    obtain ⟨b, hb, hc, hrest⟩ := exists_byteLength_cons c s
    rw [List.cons_append, hb, takeBytes?, if_pos hc, hrest, ih]
    rfl

theorem dropBytes?_append (s rest : Text) : dropBytes? (s ++ rest) s.byteLength = some rest := by
  induction s with
  | nil => cases rest <;> rfl
  | cons c s ih =>
    obtain ⟨b, hb, hc, hrest⟩ := exists_byteLength_cons c s
    rw [List.cons_append, hb, dropBytes?, if_pos hc, hrest, ih]

theorem slice?_append (s t u : Text) :
    slice? (s ++ t ++ u) s.byteLength (s ++ t).byteLength = some t := by
  have hle : s.byteLength ≤ (s ++ t).byteLength := byteLength_le_of_prefix (List.prefix_append s t)
  have hlen : (s ++ t).byteLength - s.byteLength = t.byteLength := by
    rw [byteLength_append]
    omega
  rw [slice?, if_pos hle, List.append_assoc, dropBytes?_append, Option.bind_some, hlen,
    takeBytes?_append]

theorem takeBytes?_eq_some {t s : Text} {b : Nat} :
    t.takeBytes? b = some s ↔ ∃ rest, t = s ++ rest ∧ b = s.byteLength := by
  constructor
  · intro h
    fun_induction takeBytes? t b generalizing s with
    | case1 t =>
      cases h
      exact ⟨t, rfl, rfl⟩
    | case2 => cases h
    | case3 c t b hc ih =>
      obtain ⟨s, hs, rfl⟩ := Option.map_eq_some_iff.1 h
      obtain ⟨rest, rfl, hb⟩ := ih hs
      refine ⟨rest, rfl, ?_⟩
      rw [byteLength_cons]
      omega
    | case4 => cases h
  · rintro ⟨rest, rfl, rfl⟩
    exact takeBytes?_append s rest

theorem dropBytes?_eq_some {t rest : Text} {b : Nat} :
    t.dropBytes? b = some rest ↔ ∃ s, t = s ++ rest ∧ b = s.byteLength := by
  constructor
  · intro h
    fun_induction dropBytes? t b with
    | case1 t =>
      cases h
      exact ⟨[], rfl, rfl⟩
    | case2 => cases h
    | case3 c t b hc ih =>
      obtain ⟨s, rfl, hb⟩ := ih h
      refine ⟨c :: s, rfl, ?_⟩
      rw [byteLength_cons]
      omega
    | case4 => cases h
  · rintro ⟨s, rfl, rfl⟩
    exact dropBytes?_append s rest

theorem slice?_eq_some {t s : Text} {start stop : Nat} :
    t.slice? start stop = some s ↔
      ∃ before rest, t = before ++ s ++ rest ∧ start = before.byteLength ∧
        stop = (before ++ s).byteLength := by
  constructor
  · intro h
    rw [slice?] at h
    split at h
    · obtain ⟨rest, hd, ht⟩ := Option.bind_eq_some_iff.1 h
      obtain ⟨before, rfl, rfl⟩ := dropBytes?_eq_some.1 hd
      obtain ⟨rest, rfl, hlen⟩ := takeBytes?_eq_some.1 ht
      refine ⟨before, rest, (List.append_assoc _ _ _).symm, rfl, ?_⟩
      rw [byteLength_append]
      omega
    · cases h
  · rintro ⟨before, rest, rfl, rfl, rfl⟩
    exact slice?_append before s rest

theorem byteLength_eq_zero {t : Text} : t.byteLength = 0 ↔ t = [] := by
  cases t with
  | nil => simp
  | cons c t =>
    have hc := c.utf8Size_pos
    rw [byteLength_cons]
    simp
    omega

theorem prefix_of_byteLength_le {s u t : Text} (hs : s <+: t) (hu : u <+: t)
    (h : s.byteLength ≤ u.byteLength) : s <+: u := by
  rcases List.prefix_or_prefix_of_prefix hs hu with hsu | ⟨more, rfl⟩
  · exact hsu
  · rw [byteLength_append] at h
    have hmore : more = [] := byteLength_eq_zero.1 (by omega)
    simp [hmore]

end Text

end ModuleLens
