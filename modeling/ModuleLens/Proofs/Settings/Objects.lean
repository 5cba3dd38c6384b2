import ModuleLens.Proofs.Settings.Values

/-! Settings as JSON objects.  Members are read one by one: a known one changes its own field, and
any other is skipped.  So an object gives the fields that it has, whatever their order and whatever
stands between them, and the written form of settings is such an object. -/

namespace ModuleLens

namespace Settings

open Json

/-- How the value of a field is written. -/
def Field.Writes (s : Settings) : Field → Text → Prop
  | .maxImportDepth, v => IsNatural s.maxImportDepth.toNat v
  | .workerThreads, v => IsNatural s.workerThreads.toNat v
  | .importTimeoutMs, v => IsNatural s.importTimeoutMs.toNat v
  | .enableExperimentalFeatures, v => v = truth s.enableExperimentalFeatures
  | .disabledFeatures, v => IsFeatureArray s.disabledFeatures v

/-- The settings `r`, but with the fields `fs` as in `s`. -/
def taking (r s : Settings) (fs : List Field) : Settings where
  maxImportDepth := if .maxImportDepth ∈ fs then s.maxImportDepth else r.maxImportDepth
  workerThreads := if .workerThreads ∈ fs then s.workerThreads else r.workerThreads
  importTimeoutMs := if .importTimeoutMs ∈ fs then s.importTimeoutMs else r.importTimeoutMs
  enableExperimentalFeatures :=
    if .enableExperimentalFeatures ∈ fs then s.enableExperimentalFeatures
    else r.enableExperimentalFeatures
  disabledFeatures := if .disabledFeatures ∈ fs then s.disabledFeatures else r.disabledFeatures

section

variable (r s : Settings) (fs gs : List Field)

theorem taking_taking : (r.taking s fs).taking s gs = r.taking s (fs ++ gs) := by
  have hif : ∀ (f : Field) {α : Type} (x y : α),
      (if f ∈ gs then x else if f ∈ fs then x else y) = if f ∈ fs ++ gs then x else y := by
    intro f α x y
    by_cases hf : f ∈ fs <;> simp [hf]
  simp only [taking, hif]

theorem taking_all : r.taking s Field.all = s := by
  simp [taking, Field.all]

theorem taking_perm (h : fs.Perm gs) : r.taking s fs = r.taking s gs := by
  simp only [taking, h.mem_iff]

end

variable {r s : Settings} {f : Field} {fs seen : List Field} {first : Bool} {n : Nat}
  {p w v m t : Text}

theorem Field.Writes.read (hv : f.Writes s v) (hw : Blank w) (ht : Stops t) :
    readField r f (w ++ (v ++ t)) = .ok (r.taking s [f], t) := by
  cases f with
  | maxImportDepth | workerThreads | importTimeoutMs =>
    rw [readField, IsNatural.read hv (UInt64.toNat_lt _) hw ht]
    simp [Except.map, taking]
  | enableExperimentalFeatures =>
    rw [readField, show v = truth _ from hv, readBool_truth hw]
    rfl
  | disabledFeatures =>
    rw [readField, IsFeatureArray.read hv hw]
    rfl

/-! ### Members -/

/-- A member of an object, and the fields that it gives: one that is known with its value in `s`, or
any other. -/
inductive IsMember (s : Settings) : List Field → Text → Prop
  | known {f : Field} {w k w₁ w₂ v w₃ : Text} (hw : Blank w) (hk : Spells f.name.toList k)
      (hw₁ : Blank w₁) (hw₂ : Blank w₂) (hv : f.Writes s v) (hw₃ : Blank w₃) :
      IsMember s [f] (w ++ '"' :: (k ++ '"' :: (w₁ ++ ':' :: (w₂ ++ (v ++ w₃)))))
  | unknown {name w k w₁ e : Text} (hname : ∀ f : Field, f.name.toList ≠ name) (hw : Blank w)
      (hk : Spells name k) (hw₁ : Blank w₁) (he : Derives .element e) :
      IsMember s [] (w ++ '"' :: (k ++ '"' :: (w₁ ++ ':' :: e)))

inductive AreMembers (s : Settings) : List Field → Text → Prop
  | last {fs : List Field} {m : Text} (hm : IsMember s fs m) : AreMembers s fs m
  | more {fs gs : List Field} {m b : Text} (hm : IsMember s fs m) (hb : AreMembers s gs b) :
      AreMembers s (fs ++ gs) (m ++ ',' :: b)

/-- An object with white space around it, and the fields that it gives as they are in `s`. -/
inductive IsObject (s : Settings) : List Field → Text → Prop
  | empty {w w₁ w₂ : Text} (hw : Blank w) (hw₁ : Blank w₁) (hw₂ : Blank w₂) :
      IsObject s [] (w ++ '{' :: (w₁ ++ '}' :: w₂))
  | members {fs : List Field} {w b w₁ : Text} (hw : Blank w) (hb : AreMembers s fs b)
      (hw₁ : Blank w₁) : IsObject s fs (w ++ '{' :: (b ++ '}' :: w₁))

theorem ofName?_name (f : Field) : Field.ofName? f.name.toList = some f := by
  cases f <;> rfl

theorem ofName?_unknown {name : Text} (h : ∀ f : Field, f.name.toList ≠ name) :
    Field.ofName? name = none :=
  List.find?_eq_none.2 fun f _ => by simpa using h f

theorem nextMember_key (hp : Leads first p) (hw : Blank w) (t : Text) :
    nextMember first (p ++ (w ++ '"' :: t)) = .ok (.inl t) := by
  cases hp with
  | first =>
    rw [List.nil_append, nextMember, skipBlank_token hw (by decide)]
    rfl
  | next hw' =>
    rw [List.append_assoc, List.singleton_append, nextMember, skipBlank_token hw' (by decide)]
    split
    · next hcomma => exact absurd hcomma (List.cons_ne_nil _ _)
    · next hcomma => exact absurd (List.cons.inj hcomma).1 (by decide)
    · next hcomma =>
      cases hcomma
      rw [if_neg Bool.false_ne_true, if_pos rfl, skipBlank_token hw (by decide)]
      rfl

theorem readMembers_end (hw : Blank w) (t : Text) :
    readMembers (n + 1) first seen r (w ++ '}' :: t) = .ok (r, t) := by
  rw [readMembers, nextMember, skipBlank_token hw (by decide)]
  rfl

theorem IsMember.read (h : IsMember s fs m) (hp : Leads first p) (hn : m.length ≤ n)
    (hnew : ∀ f ∈ fs, f ∉ seen) :
    ∃ w, Blank w ∧ ∀ c t, c = ',' ∨ c = ']' ∨ c = '}' →
      readMembers (n + 1) first seen r (p ++ (m ++ c :: t)) =
        readMembers n false (fs ++ seen) (r.taking s fs) (w ++ c :: t) := by
  cases h with
  | @known f w k w₁ w₂ v w₃ hw hk hw₁ hw₂ hv hw₃ =>
    refine ⟨w₃, hw₃, fun c t hc => ?_⟩
    have hvalue := hv.read (r := r) hw₂ ((Stops.cons hc t).append hw₃)
    have hseen : seen.contains f = false := by simpa using hnew f (List.mem_singleton_self f)
    simp only [List.append_assoc, List.cons_append, List.nil_append]
    simp only [readMembers, nextMember_key hp hw, hk.read, ofName?_name, hseen, readColon_colon hw₁,
      hvalue, bind, Except.bind, Bool.false_eq_true, if_false]
  | unknown hname hw hk hw₁ he =>
    obtain ⟨u, hu, hskip⟩ := he.skips
    refine ⟨u, hu, fun c t hc => ?_⟩
    simp only [List.length_append, List.length_cons] at hn
    have hskip := hskip n c t (by omega) hc
    simp only [List.append_assoc, List.cons_append, List.nil_append]
    simp only [readMembers, nextMember_key hp hw, hk.read, ofName?_unknown hname,
      readColon_colon hw₁, hskip, bind, Except.bind]
    rfl

theorem IsMember.length_pos (h : IsMember s fs m) : 0 < m.length := by
  cases h <;> simp only [List.length_append, List.length_cons] <;> omega

theorem AreMembers.read {b : Text} (h : AreMembers s fs b) (hp : Leads first p)
    (hn : b.length < n) (hfs : fs.Nodup) (hnew : ∀ f ∈ fs, f ∉ seen) (t : Text) :
    readMembers n first seen r (p ++ (b ++ '}' :: t)) = .ok (r.taking s fs, t) := by
  induction h generalizing n first p seen r with
  | last hm =>
    have hpos := hm.length_pos
    obtain ⟨n, rfl⟩ : ∃ m, n = m + 2 := Nat.exists_eq_add_of_le' (by omega)
    obtain ⟨w, hw, hread⟩ := hm.read (r := r) hp (n := n + 1) (by omega) hnew
    rw [hread '}' t (.inr (.inr rfl)), readMembers_end hw]
  | @more fs gs m b hm hb ih =>
    rw [List.length_append, List.length_cons] at hn
    obtain ⟨n, rfl⟩ : ∃ m, n = m + 1 := Nat.exists_eq_add_one_of_ne_zero (by omega)
    obtain ⟨hfirst, hrest, hdisjoint⟩ := List.nodup_append.1 hfs
    obtain ⟨w, hw, hread⟩ := hm.read (r := r) hp (n := n) (by omega)
      fun f hf => hnew f (List.mem_append_left gs hf)
    have hseen : ∀ f ∈ gs, f ∉ fs ++ seen := by
      intro f hg hf
      rcases List.mem_append.1 hf with hf | hf
      · exact hdisjoint f hf f hg rfl
      · exact hnew f (List.mem_append_right fs hg) hf
    have hmore := ih (r := r.taking s fs) (.next hw) (n := n) (by omega) hrest hseen
    rw [List.append_assoc, List.singleton_append, taking_taking] at hmore
    rw [List.append_assoc, List.cons_append, hread ',' _ (.inl rfl), hmore]

theorem IsObject.read (h : IsObject s fs t) (hfs : fs.Nodup) :
    ofJson t = .ok (taking {} s fs) := by
  have hend : ∀ {w : Text}, Blank w → skipBlank w = [] := fun hw =>
    List.dropWhile_eq_nil_iff.2 hw
  cases h with
  | empty hw hw₁ hw₂ =>
    rw [ofJson, skipBlank_token hw (by decide)]
    simp only [readMembers_end hw₁, bind, Except.bind, hend hw₂]
    rfl
  | @members fs w b w₁ hw hb hw₁ =>
    have hnew : ∀ f ∈ fs, f ∉ ([] : List Field) := fun f _ => List.not_mem_nil
    have hlen : b.length < 2 * (b ++ '}' :: w₁).length + 3 := by
      rw [List.length_append]
      omega
    have hread := hb.read (r := {}) .first hlen hfs hnew w₁
    rw [List.nil_append] at hread
    rw [ofJson, skipBlank_token hw (by decide)]
    simp only [hread, bind, Except.bind, hend hw₁]
    rfl

/-! ### The written form -/

theorem spells_feature (f : Feature) : Spells f.name.toList f.name.toList :=
  spells_self (by cases f <;> decide)

theorem spells_field (f : Field) : Spells f.name.toList f.name.toList :=
  spells_self (by cases f <;> decide)

theorem areFeatures_intercalate (f : Feature) (fs : List Feature) :
    AreFeatures (f :: fs) ([','].intercalate ((f :: fs).map fun f => quoted f.name)) := by
  induction fs generalizing f with
  | nil =>
    rw [List.map_singleton, List.intercalate_singleton]
    simpa [quoted] using AreFeatures.last blank_nil (.name (spells_feature f)) blank_nil
  | cons g fs ih =>
    rw [List.map_cons, List.map_cons, List.intercalate_cons_cons]
    simpa [quoted] using AreFeatures.more blank_nil (.name (spells_feature f)) blank_nil (ih g)

theorem writes_fieldJson (s : Settings) (f : Field) : f.Writes s (s.fieldJson f) := by
  cases f with
  | maxImportDepth | workerThreads | importTimeoutMs => exact isNatural_toString _
  | enableExperimentalFeatures =>
    cases h : s.enableExperimentalFeatures <;> simp [Field.Writes, fieldJson, truth, h]
  | disabledFeatures =>
    change IsFeatureArray s.disabledFeatures (s.fieldJson .disabledFeatures)
    rw [fieldJson]
    cases s.disabledFeatures with
    | nil => exact .empty blank_nil
    | cons f fs => exact .features (areFeatures_intercalate f fs)

theorem areMembers_intercalate (s : Settings) (f : Field) (fs : List Field) :
    AreMembers s (f :: fs)
      ([','].intercalate ((f :: fs).map fun f => quoted f.name ++ ':' :: s.fieldJson f)) := by
  have hm : ∀ f : Field, IsMember s [f] (quoted f.name ++ ':' :: s.fieldJson f) := fun f => by
    simpa [quoted] using IsMember.known blank_nil (spells_field f) blank_nil blank_nil
      (s.writes_fieldJson f) blank_nil
  induction fs generalizing f with
  | nil =>
    rw [List.map_singleton, List.intercalate_singleton]
    exact .last (hm f)
  | cons g fs ih =>
    rw [List.map_cons, List.map_cons, List.intercalate_cons_cons]
    simpa using AreMembers.more (hm f) (ih g)

theorem isObject_toJson (s : Settings) : IsObject s Field.all s.toJson := by
  have h := IsObject.members blank_nil (s.areMembers_intercalate .maxImportDepth
    [.workerThreads, .importTimeoutMs, .enableExperimentalFeatures, .disabledFeatures]) blank_nil
  exact h

end Settings

/-- Settings are read back from their JSON form.  An object with members in any order, white space
between any two tokens and unknown members among the others gives the fields that it has, each of
them once, and the defaults of those that it has not. -/
theorem settings_survive_json :
    (∀ s : Settings, Settings.ofJson s.toJson = .ok s) ∧
    ∀ (s : Settings) (fs : List Settings.Field) (t : Text), fs.Nodup → s.IsObject fs t →
      Settings.ofJson t = .ok (Settings.taking {} s fs) ∧
      ∀ fs' t', fs'.Perm fs → s.IsObject fs' t' → Settings.ofJson t' = Settings.ofJson t := by
  constructor
  · intro s
    rw [s.isObject_toJson.read (by decide), Settings.taking_all]
  · intro s fs t hfs h
    refine ⟨h.read hfs, fun fs' t' hperm h' => ?_⟩
    rw [h.read hfs, h'.read (hperm.nodup_iff.2 hfs), Settings.taking_perm _ _ _ _ hperm]

def mixedObject : Text :=
  "\x7b\"x\": [\x7b \x7d], \"\\u0077orkerThreads\" :8\x7d".toList

theorem isObject_mixed : Settings.IsObject { workerThreads := 8 } [.workerThreads] mixedObject := by
  have hrow : Json.Derives .element (' ' :: '[' :: '{' :: ' ' :: '}' :: ']' :: []) :=
    .element Json.blank_space (.array (.lastElement (.element Json.blank_nil
      (.emptyObject Json.blank_space) Json.blank_nil))) Json.blank_nil
  have hunknown : ∀ f : Settings.Field, f.name.toList ≠ ['x'] := by
    intro f
    cases f <;> decide
  have hx : Json.Spells ['x'] ['x'] := Json.spells_self (by decide)
  have hw : Json.Writes 'w' ('\\' :: 'u' :: ['0', '0', '7', '7']) :=
    .unit (.mk (x := 0) (y := 0) (z := 7) (w := 7) rfl rfl rfl rfl)
  have hkey := Json.Spells.cons hw
    (Json.spells_self (t := "orkerThreads".toList) (by decide))
  have hvalue : Json.IsNatural 8 ['8'] := Json.isNatural_toString 8
  have hmember := Settings.IsMember.known (f := .workerThreads) (s := { workerThreads := 8 })
    Json.blank_space hkey Json.blank_space Json.blank_nil hvalue Json.blank_nil
  exact .members Json.blank_nil (.more (.unknown hunknown Json.blank_nil hx Json.blank_nil hrow)
    (.last hmember)) Json.blank_nil

/-- The known member comes last, has an escape in its key and stands after one that is unknown. -/
theorem settings_survive_json_mixed :
    [Settings.Field.workerThreads].Nodup ∧
    Settings.IsObject { workerThreads := 8 } [.workerThreads] mixedObject ∧
    Settings.ofJson mixedObject = .ok { workerThreads := 8 } := by
  have hnodup : [Settings.Field.workerThreads].Nodup := by decide
  exact ⟨hnodup, isObject_mixed, (settings_survive_json.2 _ _ _ hnodup isObject_mixed).1⟩

end ModuleLens
