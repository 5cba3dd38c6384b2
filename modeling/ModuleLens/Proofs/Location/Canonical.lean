import Mathlib.Data.List.Induction
import ModuleLens.Location.Uri
import ModuleLens.Proofs.Location.Percent
import ModuleLens.Proofs.Text.Affixes

/-! Canonical locations.  Folding a path leaves names only, so a location made from it is read back
as the same path, and that path has no other location.  Paths are texts: what a path is that holds
ill-formed bytes is left out. -/

namespace ModuleLens

namespace Path

/-- A component that is not empty and has no slash in it. -/
def IsPiece (c : Text) : Prop := c ≠ [] ∧ '/' ∉ c

/-- A component that names something: neither `.` nor `..`. -/
structure IsName (c : Text) : Prop where
  piece : IsPiece c
  here : c ≠ ['.']
  up : c ≠ ['.', '.']

/-- The names that components lead to from the root: `.` stays, and `..` takes back the last name;
at the root there is none to take back. -/
inductive Folds : List Text → List Text → Prop where
  | root : Folds [] []
  | here {cs names : List Text} (h : Folds cs names) : Folds (cs ++ [['.']]) names
  | up {cs names : List Text} (h : Folds cs names) : Folds (cs ++ [['.', '.']]) names.dropLast
  | down {cs names : List Text} {c : Text} (h : Folds cs names) (hc : IsName c) :
      Folds (cs ++ [c]) (names ++ [c])

theorem Folds.isName {cs names : List Text} (h : Folds cs names) : ∀ c ∈ names, IsName c := by
  induction h with
  | root => exact fun _ hc => nomatch hc
  | here _ ih => exact ih
  | up _ ih => exact fun c hc => ih c (List.dropLast_subset _ hc)
  | down _ hn ih =>
    intro c hc
    rcases List.mem_append.1 hc with hc | hc
    · exact ih c hc
    · rwa [List.mem_singleton.1 hc]

theorem folds_foldl {cs : List Text} (h : ∀ c ∈ cs, IsPiece c) : Folds cs (cs.foldl enter []) := by
  induction cs using List.reverseRecOn with
  | nil => exact .root
  | append_singleton cs c ih =>
    have ih := ih fun d hd => h d (List.mem_append_left [c] hd)
    have hc := h c (List.mem_append_right cs List.mem_cons_self)
    rw [List.foldl_append, List.foldl_cons, List.foldl_nil, enter]
    by_cases hhere : c = ['.']
    · rw [if_pos hhere, hhere]
      exact ih.here
    · rw [if_neg hhere]
      by_cases hup : c = ['.', '.']
      · rw [if_pos hup, hup]
        exact ih.up
      · rw [if_neg hup]
        exact ih.down ⟨hc, hhere, hup⟩

theorem Folds.eq_foldl {cs names : List Text} (h : Folds cs names) :
    names = cs.foldl enter [] := by
  induction h with
  | root => rfl
  | here _ ih =>
    rw [List.foldl_append, ← ih]
    rfl
  | up _ ih =>
    rw [List.foldl_append, ← ih]
    rfl
  | down _ hc ih =>
    rw [List.foldl_append, ← ih, List.foldl_cons, List.foldl_nil, enter, if_neg hc.here,
      if_neg hc.up]

/-- Components fold to one row of names, the one that `normalize` makes. -/
theorem folds_iff {cs names : List Text} (h : ∀ c ∈ cs, IsPiece c) :
    Folds cs names ↔ names = cs.foldl enter [] := by
  refine ⟨Folds.eq_foldl, ?_⟩
  rintro rfl
  exact folds_foldl h

theorem foldl_enter_names {names : List Text} (h : ∀ c ∈ names, IsName c) :
    names.foldl enter [] = names := by
  induction names using List.reverseRecOn with
  | nil => rfl
  | append_singleton names c ih =>
    have hc := h c (List.mem_append_right names List.mem_cons_self)
    rw [List.foldl_append, ih fun d hd => h d (List.mem_append_left [c] hd), List.foldl_cons,
      List.foldl_nil, enter, if_neg hc.here, if_neg hc.up]

theorem not_mem_of_mem_splitOn {a : Char} {t piece : Text} (h : piece ∈ t.splitOn a) :
    a ∉ piece := by
  induction t generalizing piece with
  | nil =>
    rw [List.splitOn_nil, List.mem_singleton] at h
    rw [h]
    exact List.not_mem_nil
  | cons c t ih =>
    rw [List.splitOn_cons_eq_if_modifyHead] at h
    split at h
    · rcases List.mem_cons.1 h with rfl | h
      · exact List.not_mem_nil
      · exact ih h
    · next hc =>
      obtain ⟨first, rest, hsplit⟩ := List.exists_cons_of_ne_nil (List.splitOn_ne_nil a t)
      rw [hsplit] at ih
      rw [hsplit, List.modifyHead_cons] at h
      rcases List.mem_cons.1 h with rfl | h
      · exact List.not_mem_cons_of_ne_of_not_mem (fun he => hc (beq_iff_eq.2 he.symm))
          (ih List.mem_cons_self)
      · exact ih (List.mem_cons_of_mem first h)

theorem isPiece_of_mem_parse {t c : Text} (h : c ∈ (parse t).components) : IsPiece c := by
  have hsub : ∀ d ∈ (parse t).components, d ∈ (t.splitOn '/').filter (· != []) := by
    intro d hd
    rw [parse] at hd
    split at hd
    · next heq =>
      rw [heq]
      rcases List.mem_cons.1 hd with rfl | hd
      · exact List.mem_cons_self
      · exact List.mem_cons_of_mem _ ((List.mem_filter.1 hd).1)
    · exact (List.mem_filter.1 hd).1
  obtain ⟨hmem, hne⟩ := List.mem_filter.1 (hsub c h)
  exact ⟨by simpa using hne, not_mem_of_mem_splitOn hmem⟩

theorem rooted_parse (t : Text) : (parse t).rooted = (t.head? == some '/') := by
  rw [parse]
  split
  · next h _ => exact h.symm
  · rfl

theorem parse_names {names : List Text} (h : ∀ c ∈ names, IsName c) :
    parse ('/' :: ['/'].intercalate names) = ⟨true, names⟩ := by
  have hpieces : (('/' :: ['/'].intercalate names).splitOn '/').filter (· != []) = names := by
    rw [List.splitOn_cons_eq_if_modifyHead, if_pos (beq_self_eq_true '/')]
    cases names with
    | nil => rfl
    | cons c names =>
      rw [List.splitOn_intercalate '/' (fun d hd => (h d hd).piece.2) (List.cons_ne_nil c names)]
      refine (List.filter_cons_of_neg (by simp)).trans (List.filter_eq_self.2 fun d hd => ?_)
      simpa using (h d hd).piece.1
  have hnames : names.filter (· != ['.']) = names :=
    List.filter_eq_self.2 fun d hd => by simpa using (h d hd).here
  simp [parse, hpieces, hnames]

theorem render_rooted (names : List Text) :
    render ⟨true, names⟩ = '/' :: ['/'].intercalate names := rfl

theorem normalize_names {names : List Text} (h : ∀ c ∈ names, IsName c) :
    normalize ⟨true, names⟩ = ⟨true, names⟩ := by
  rw [normalize, foldl_enter_names h]

end Path

namespace Uri

open ModuleLens.Path

/-- A slash after the file prefix keeps a path from being taken for one on the local host. -/
theorem filePath?_ofPath (names : List Text) :
    (ofPath ⟨true, names⟩).filePath? = some ('/' :: ['/'].intercalate names) := by
  let path := '/' :: ['/'].intercalate names
  have hstart : Text.dropPrefix? fileStart (fileStart ++ Percent.encode path) =
      some (Percent.encode path) := Text.dropPrefix?_append _ _
  have hlocal : Text.dropPrefix? localHost (Percent.encode path) = none := rfl
  rw [filePath?, ofPath, render_rooted, hstart, Option.map_some, hlocal, Option.getD_none,
    Percent.decode_encode]

theorem parse_text (u : Uri) : parse u.text = .ok u := by
  have hne : ¬ u.text.isEmpty := by
    intro h
    have habs := u.absolute
    rw [List.isEmpty_iff.1 h] at habs
    cases habs
  rw [parse, if_neg hne, dif_pos u.absolute]

/-- A location that stands for names from the root: it is read back from its text, its path is made
of the names, and this path has no other location, wherever it is taken from. -/
structure StandsFor (u : Uri) (names : List Text) : Prop where
  accepted : parse u.text = .ok u
  path : u.filePath? = some ('/' :: ['/'].intercalate names)
  canonical : ∀ c ∈ names, IsName c
  location : ∀ current, ofFilePath current ('/' :: ['/'].intercalate names) = u

theorem standsFor_ofPath {names : List Text} (h : ∀ c ∈ names, IsName c) :
    StandsFor (ofPath ⟨true, names⟩) names := by
  refine ⟨parse_text _, filePath?_ofPath names, h, fun current => ?_⟩
  have habs : Path.absolute current ('/' :: ['/'].intercalate names) = ⟨true, names⟩ := by
    rw [Path.absolute, List.isEmpty_cons, parse_names h]
    rfl
  rw [ofFilePath, habs, normalize_names h]

theorem exists_standsFor {components : List Text} (h : ∀ c ∈ components, IsPiece c) :
    ∃ names, (∀ ns, Folds components ns ↔ ns = names) ∧
      StandsFor (ofPath (Path.normalize ⟨true, components⟩)) names :=
  ⟨_, fun _ => folds_iff h, standsFor_ofPath (folds_foldl h).isName⟩

theorem parent?_rooted {p : Path} (h : p.rooted) :
    p.parent?.getD Path.root = ⟨true, p.components.dropLast⟩ := by
  obtain ⟨_, components⟩ := p
  cases h
  cases components <;> rfl

theorem rooted_join {p q : Path} (h : p.rooted) :
    p.join q = ⟨true, (if q.rooted then [] else p.components) ++ q.components⟩ := by
  rw [Path.join]
  split
  · next hq => exact congrArg (Path.mk · q.components) hq
  · exact congrArg (Path.mk · _) h

theorem exists_standsFor_join {directory : List Text} (h : ∀ c ∈ directory, IsPiece c)
    (relative : Text) :
    ∃ names, (∀ ns, Folds ((if relative.head? = some '/' then [] else directory) ++
        (Path.parse relative).components) ns ↔ ns = names) ∧
      StandsFor (ofPath (Path.join ⟨true, directory⟩ (Path.parse relative)).normalize) names := by
  have hrooted : (Path.parse relative).rooted = true ↔ relative.head? = some '/' := by
    rw [rooted_parse, beq_iff_eq]
  have hjoin := rooted_join (p := ⟨true, directory⟩) (q := Path.parse relative) rfl
  simp only [hjoin, hrooted]
  refine exists_standsFor fun c hc => ?_
  rcases List.mem_append.1 hc with hc | hc
  · split at hc
    · cases hc
    · exact h c hc
  · exact isPiece_of_mem_parse hc

end Uri

open ModuleLens.Path

/-- Joining a relative text to a location with an absolute path succeeds, and what comes out stands
for the names that the components lead to: those of the directory, unless the text starts at the
root, and then those of the text.  The location of a path is made in the same way, from the
directory in which it is taken. -/
theorem located_canonical :
    (∀ (u : Uri) (base relative : Text), u.filePath? = some base → base.head? = some '/' →
      ∃ v names, u.join relative = .ok v ∧ v.StandsFor names ∧
        ∀ ns, Folds ((if relative.head? = some '/' then [] else (parse base).components.dropLast) ++
          (parse relative).components) ns ↔ ns = names) ∧
    ∀ current path : Text, current.head? = some '/' → path ≠ [] →
      ∃ names, (Uri.ofFilePath (parse current) path).StandsFor names ∧
        ∀ ns, Folds ((if path.head? = some '/' then [] else (parse current).components) ++
          (parse path).components) ns ↔ ns = names := by
  have hrooted {t : Text} (h : t.head? = some '/') : (parse t).rooted := by
    rw [rooted_parse, beq_iff_eq]
    exact h
  have hpieces {t c : Text} (hc : c ∈ (parse t).components.dropLast) : IsPiece c :=
    isPiece_of_mem_parse (List.dropLast_subset _ hc)
  refine ⟨fun u base relative hu hbase => ?_, fun current path hcurrent hpath => ?_⟩
  · obtain ⟨names, hfolds, hstands⟩ := Uri.exists_standsFor_join (fun _ => hpieces) relative
    refine ⟨_, names, ?_, hstands, hfolds⟩
    rw [Uri.join, hu, ← Uri.parent?_rooted (hrooted hbase)]
  · obtain ⟨names, hfolds, hstands⟩ :=
      Uri.exists_standsFor_join (fun _ => isPiece_of_mem_parse) path
    have hempty : ¬ path.isEmpty := fun h => hpath (List.isEmpty_iff.1 h)
    have hcur : parse current = ⟨true, (parse current).components⟩ :=
      congrArg (Path.mk · (parse current).components) (hrooted hcurrent)
    refine ⟨names, ?_, hfolds⟩
    rw [Uri.ofFilePath, Path.absolute, if_neg hempty, hcur]
    exact hstands

/-- A location with an escaped slash, a doubled one, and both kinds of dots. -/
def deepUri : Uri := ⟨"file:///w/a%2Fb//./c/../main%20x.pkl".toList, by decide⟩

theorem located_canonical_deep :
    deepUri.filePath? = some "/w/a/b//./c/../main x.pkl".toList ∧
    (∃ v, deepUri.join "../é/./x.pkl".toList = .ok v ∧
      v.filePath? = some "/w/a/é/x.pkl".toList ∧
      ∀ current, Uri.ofFilePath current "/w/a/é/x.pkl".toList = v) ∧
    (Uri.ofFilePath (parse "/w".toList) "a//../../../b/".toList).filePath? =
      some "/b".toList := by
  have hpath : deepUri.filePath? = some "/w/a/b//./c/../main x.pkl".toList := by decide
  have hjoined : Folds ["w".toList, "a".toList, "b".toList, "c".toList, "..".toList, "..".toList,
      "é".toList, "x.pkl".toList] ["w".toList, "a".toList, "é".toList, "x.pkl".toList] :=
    folds_foldl (by simp [IsPiece])
  have htaken : Folds ["w".toList, "a".toList, "..".toList, "..".toList, "..".toList, "b".toList]
      ["b".toList] := folds_foldl (by simp [IsPiece])
  obtain ⟨v, names, hv, hstands, hnames⟩ :=
    located_canonical.1 deepUri _ "../é/./x.pkl".toList hpath (by decide)
  obtain ⟨names', hstands', hnames'⟩ :=
    located_canonical.2 "/w".toList "a//../../../b/".toList (by decide) (by decide)
  obtain rfl := (hnames _).1 hjoined
  obtain rfl := (hnames' _).1 htaken
  exact ⟨hpath, ⟨v, hv, hstands.path, hstands.location⟩, hstands'.path⟩

end ModuleLens
