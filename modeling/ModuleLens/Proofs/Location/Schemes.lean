import ModuleLens.Proofs.Location.Canonical

/-! File locations by scheme and by prefix.  Whether a location is a file is asked in two ways: by
its scheme, in letters of either case, and by the prefix `file://`, after which its path stands.  A
location with the prefix has the scheme.  The converse fails for files that are written otherwise,
and nothing can be found from these. -/

namespace ModuleLens

namespace Uri

variable {u : Uri}

/-- The scheme `file` in other letters, or without the two slashes after it. -/
def WrittenOtherwise (u : Uri) : Prop :=
  ∃ scheme rest, u.text = scheme ++ ':' :: rest ∧ scheme.map Char.toLower = "file".toList ∧
    (scheme ≠ "file".toList ∨ ¬ ['/', '/'] <+: rest)

theorem isSome_filePath? : u.filePath?.isSome ↔ fileStart <+: u.text := by
  rw [filePath?, Option.isSome_map, Text.isSome_dropPrefix?]

theorem scheme_of_text {scheme rest : Text} (h : u.text = scheme ++ ':' :: rest)
    (hs : ':' ∉ scheme) : u.scheme = scheme := by
  have hall : ∀ c ∈ scheme, (c != ':') = true := fun c hc => by
    simpa using fun he : c = ':' => hs (he ▸ hc)
  rw [Uri.scheme, h, List.takeWhile_append_of_pos hall]
  simp

theorem exists_text (u : Uri) : ∃ rest, u.text = u.scheme ++ ':' :: rest := by
  have habs := u.absolute
  rw [isAbsolute, splitScheme?] at habs
  cases hd : u.text.dropWhile (· != ':') with
  | nil => simp [hd] at habs
  | cons c rest =>
    have hc : c = ':' := by
      have hhead := List.head?_dropWhile_not (· != ':') u.text
      simpa [hd] using hhead
    subst hc
    exact ⟨rest, by rw [Uri.scheme, ← hd, List.takeWhile_append_dropWhile]⟩

theorem isFile_of_fileStart (h : fileStart <+: u.text) : u.isFile := by
  obtain ⟨rest, hrest⟩ := h
  have htext : u.text = "file".toList ++ ':' :: '/' :: '/' :: rest := hrest.symm
  rw [isFile, scheme_of_text htext (by decide)]
  decide

/-- The files without the prefix are those that are written otherwise. -/
theorem writtenOtherwise_iff : u.WrittenOtherwise ↔ u.isFile ∧ ¬ fileStart <+: u.text := by
  constructor
  · rintro ⟨scheme, rest, htext, hlower, hother⟩
    have hcolon : ':' ∉ scheme := fun hm => by
      have hm := List.mem_map_of_mem (f := Char.toLower) hm
      rw [hlower] at hm
      exact absurd hm (by decide)
    refine ⟨?_, fun ⟨more, hmore⟩ => ?_⟩
    · rw [isFile, scheme_of_text htext hcolon, beq_iff_eq]
      exact hlower
    · have hfile : u.text = "file".toList ++ ':' :: '/' :: '/' :: more := hmore.symm
      have hscheme : scheme = "file".toList :=
        (scheme_of_text htext hcolon).symm.trans (scheme_of_text hfile (by decide))
      subst hscheme
      rw [htext] at hfile
      obtain rfl := List.tail_eq_of_cons_eq (List.append_cancel_left hfile)
      exact hother.elim (absurd rfl) fun h => h ⟨more, rfl⟩
  · rintro ⟨hfile, hstart⟩
    obtain ⟨rest, htext⟩ := exists_text u
    refine ⟨u.scheme, rest, htext, beq_iff_eq.1 hfile, ?_⟩
    by_contra hplain
    obtain ⟨hscheme, more, rfl⟩ := by simpa only [not_or, not_not] using hplain
    exact hstart ⟨more, by rw [htext, hscheme]; rfl⟩

theorem join_eq_error {relative : Text} {e : UriError} :
    u.join relative = .error e ↔ ¬ fileStart <+: u.text ∧ e = .notAFile u.text := by
  rw [← isSome_filePath?, join]
  cases u.filePath? with
  | none => simpa using eq_comm
  | some path => simp

end Uri

open ModuleLens.Uri

/-- A location has a path exactly if it starts with the prefix, it is a file then, and it fails to
find a relative text exactly if it does not, naming itself as no file.  So the scheme and the prefix
tell the same of a location exactly if it is not a file that is written otherwise. -/
theorem file_tests_agree_iff (u : Uri) (relative : Text) :
    (u.filePath?.isSome ↔ fileStart <+: u.text) ∧
    (fileStart <+: u.text → u.isFile) ∧
    (∀ e, u.join relative = .error e ↔ ¬ fileStart <+: u.text ∧ e = .notAFile u.text) ∧
    (((u.isFile ↔ u.filePath?.isSome) ∧
        (u.join relative = .error (.notAFile u.text) ↔ ¬ u.isFile)) ↔ ¬ u.WrittenOtherwise) := by
  refine ⟨isSome_filePath?, isFile_of_fileStart, fun e => join_eq_error, ?_⟩
  rw [isSome_filePath?, join_eq_error, writtenOtherwise_iff, not_and, not_not]
  constructor
  · rintro ⟨hfile, _⟩
    exact hfile.1
  · intro hplain
    have hiff : u.isFile ↔ fileStart <+: u.text := ⟨hplain, isFile_of_fileStart⟩
    exact ⟨hiff, by rw [hiff, and_iff_left rfl]⟩

/-- A file whose scheme is written in capitals. -/
def capitalUri : Uri := ⟨"FILE:///work/main.pkl".toList, by decide⟩

/-- A location is a file by its scheme, has no path, and is refused as no file. -/
theorem capitals_have_no_path :
    capitalUri.isFile ∧ ¬ capitalUri.filePath?.isSome ∧
    capitalUri.join "lib.pkl".toList = .error (.notAFile capitalUri.text) := by
  decide

end ModuleLens
