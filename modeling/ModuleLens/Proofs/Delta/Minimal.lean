import Mathlib.Data.List.DropRight
import ModuleLens.Proofs.Text.Slices

/-! The delta between two texts as their least difference.  Whatever stretch turns the one text into
the other, what it leaves in place at the two ends is no more than what the delta leaves in place:
the shared beginning is the longest one, and an end that reaches into it is outweighed by a text
that the delta keeps whole.  The points of a delta are found by counting line feeds from the start
of the text. -/

namespace ModuleLens

namespace Text

theorem prefix_commonPrefix {p s t : Text} (hs : p <+: s) (ht : p <+: t) :
    p <+: s.commonPrefix t := by
  induction p generalizing s t with
  | nil => exact List.nil_prefix
  | cons c p ih =>
    obtain ⟨s', rfl⟩ := hs
    obtain ⟨t', rfl⟩ := ht
    simp only [List.cons_append, commonPrefix, if_true]
    exact List.cons_prefix_cons.2 ⟨rfl, ih (List.prefix_append p s') (List.prefix_append p t')⟩

theorem byteLength_le_of_suffix {s u : Text} (h : s <:+ u) : s.byteLength ≤ u.byteLength := by
  obtain ⟨before, rfl⟩ := h
  rw [byteLength_append]
  exact Nat.le_add_left _ _

/-- The old text with its bytes from `start` to `oldEnd` replaced by the bytes of the new text from
`start` to `newEnd`, if all these offsets lie between scalars. -/
def splice? (old new : Text) (start oldEnd newEnd : Nat) : Option Text := do
  let before ← old.takeBytes? start
  let inserted ← new.slice? start newEnd
  let rest ← old.dropBytes? oldEnd
  return before ++ inserted ++ rest

theorem splice?_append (before removed inserted rest : Text) :
    splice? (before ++ removed ++ rest) (before ++ inserted ++ rest) before.byteLength
      (before ++ removed).byteLength (before ++ inserted).byteLength =
        some (before ++ inserted ++ rest) := by
  have htake : takeBytes? (before ++ removed ++ rest) before.byteLength = some before := by
    rw [List.append_assoc, takeBytes?_append]
  rw [splice?, htake, slice?_append, dropBytes?_append]
  rfl

end Text

namespace Point

/-- The point of a byte offset by counting: the line feeds before it, and the bytes since the last of
them. -/
def counted (t : Text) (b : Nat) : Point :=
  let b := min b t.byteLength
  let before := t.takeBytes b
  ⟨before.count '\n', b - Text.byteLength (before.rdropWhile (· ≠ '\n'))⟩

theorem after_start (s : Text) :
    (after ⟨0, 0⟩ s).row = s.count '\n' ∧
      (after ⟨0, 0⟩ s).column + Text.byteLength (s.rdropWhile (· ≠ '\n')) = Text.byteLength s := by
  induction s using List.reverseRecOn with
  | nil => exact ⟨rfl, rfl⟩
  | append_singleton s c ih =>
    have hnext : after ⟨0, 0⟩ (s ++ [c]) = (after ⟨0, 0⟩ s).advance c := after_append _ s [c]
    rw [hnext, advance, List.count_append, Text.byteLength_append]
    by_cases hc : c = '\n'
    · subst hc
      have hdrop : (s ++ ['\n']).rdropWhile (· ≠ '\n') = s ++ ['\n'] :=
        List.rdropWhile_concat_neg _ _ _ (by decide)
      rw [if_pos rfl, hdrop, Text.byteLength_append]
      exact ⟨by simp [ih.1], Nat.zero_add _⟩
    · have hdrop : (s ++ [c]).rdropWhile (· ≠ '\n') = s.rdropWhile (· ≠ '\n') :=
        List.rdropWhile_concat_pos _ _ _ (by simpa using hc)
      rw [if_neg hc, hdrop, ← ih.2]
      refine ⟨by simp [ih.1, hc], ?_⟩
      simp only [Text.byteLength_cons, Text.byteLength_nil]
      omega

theorem ofOffset_eq_counted (t : Text) (b : Nat) : ofOffset t b = counted t b := by
  let b' := min b t.byteLength
  obtain ⟨hrow, hcolumn⟩ := after_start (t.takeBytes b')
  obtain ⟨_, _, hle, _⟩ := t.takeBytes_cases b'
  have hh : (after ⟨0, 0⟩ (t.takeBytes b')).column + (b' - t.snap b') =
      b' - Text.byteLength ((t.takeBytes b').rdropWhile (· ≠ '\n')) := by
    rw [Text.snap]
    omega
  rw [ofOffset, counted, ← hrow]
  exact congrArg (Point.mk _) hh

/-- A point is that of a byte offset, also by counting. -/
def Marks (p : Point) (t : Text) (b : Nat) : Prop := p = ofOffset t b ∧ p = counted t b

theorem marks_of_eq {p : Point} {t : Text} {b : Nat} (h : p = ofOffset t b) : p.Marks t b :=
  ⟨h, h.trans (ofOffset_eq_counted t b)⟩

end Point

namespace Delta

variable {old new : Text}

/-- Replacing a stretch of the old text by one of the new text that starts at the same byte turns the
old text into the new one; the stretches lie in their texts and start and end between scalars. -/
structure Turns (old new : Text) (start oldEnd newEnd : Nat) : Prop where
  start_le_oldEnd : start ≤ oldEnd
  oldEnd_le : oldEnd ≤ old.byteLength
  start_le_newEnd : start ≤ newEnd
  newEnd_le : newEnd ≤ new.byteLength
  start_boundary : old.Boundary start ∧ new.Boundary start
  oldEnd_boundary : old.Boundary oldEnd
  newEnd_boundary : new.Boundary newEnd
  splices : old.splice? new start oldEnd newEnd = some new

theorem turns_iff {start oldEnd newEnd : Nat} :
    Turns old new start oldEnd newEnd ↔
      ∃ before removed inserted rest, old = before ++ removed ++ rest ∧
        new = before ++ inserted ++ rest ∧ start = Text.byteLength before ∧
        oldEnd = Text.byteLength (before ++ removed) ∧
        newEnd = Text.byteLength (before ++ inserted) := by
  constructor
  · intro h
    have hs := h.splices
    simp only [Text.splice?, Option.bind_eq_bind, Option.bind_eq_some_iff, Option.pure_def,
      Option.some.injEq] at hs
    obtain ⟨before, hbefore, inserted, hinserted, rest, hrest, hnew⟩ := hs
    obtain ⟨more, hold, hstart⟩ := Text.takeBytes?_eq_some.1 hbefore
    obtain ⟨head, hhead, holdEnd⟩ := Text.dropBytes?_eq_some.1 hrest
    obtain ⟨before', _, _, hstart', hnewEnd⟩ := Text.slice?_eq_some.1 hinserted
    have hle := h.start_le_oldEnd
    rw [hstart, holdEnd] at hle
    obtain ⟨removed, rfl⟩ := Text.prefix_of_byteLength_le (t := old) ⟨more, hold.symm⟩
      ⟨rest, hhead.symm⟩ hle
    refine ⟨before, removed, inserted, rest, hhead, hnew.symm, hstart, holdEnd, ?_⟩
    rw [hnewEnd, Text.byteLength_append, Text.byteLength_append, ← hstart', hstart]
  · rintro ⟨before, removed, inserted, rest, rfl, rfl, rfl, rfl, rfl⟩
    have hle (s u : Text) : s.byteLength ≤ Text.byteLength (s ++ u) :=
      Text.byteLength_le_of_prefix (List.prefix_append s u)
    exact ⟨hle _ _, hle _ _, hle _ _, hle _ _,
      ⟨⟨before, removed ++ rest, List.append_assoc _ _ _, rfl⟩,
        ⟨before, inserted ++ rest, List.append_assoc _ _ _, rfl⟩⟩,
      ⟨before ++ removed, rest, rfl, rfl⟩, ⟨before ++ inserted, rest, rfl, rfl⟩,
      Text.splice?_append before removed inserted rest⟩

theorem suffix_sharedTail {s : Text} (ho : s <:+ old.drop (old.commonPrefix new).length)
    (hn : s <:+ new.drop (old.commonPrefix new).length) : s <:+ sharedTail old new := by
  rw [← List.reverse_prefix] at ho hn ⊢
  rw [sharedTail, List.reverse_reverse]
  exact Text.prefix_commonPrefix ho hn

/-- What a stretch leaves in place at the two ends is no longer than what the texts share there. -/
theorem kept_le {before removed inserted rest : Text} (ho : old = before ++ removed ++ rest)
    (hn : new = before ++ inserted ++ rest) :
    before.byteLength + rest.byteLength ≤
      (old.commonPrefix new).byteLength + (sharedTail old new).byteLength := by
  let shared := old.commonPrefix new
  let oldRest := old.drop shared.length
  let newRest := new.drop shared.length
  have hold : shared ++ oldRest = old := List.prefix_iff_eq_append.1 (Text.commonPrefix_left old new)
  have hnew : shared ++ newRest = new := List.prefix_iff_eq_append.1 (Text.commonPrefix_right old new)
  have holdLen := congrArg Text.byteLength (hold.trans ho)
  have hnewLen := congrArg Text.byteLength (hnew.trans hn)
  simp only [Text.byteLength_append] at holdLen hnewLen
  have hbefore : before.byteLength ≤ shared.byteLength := by
    refine Text.byteLength_le_of_prefix (Text.prefix_commonPrefix ?_ ?_)
    · exact ⟨removed ++ rest, by rw [ho, List.append_assoc]⟩
    · exact ⟨inserted ++ rest, by rw [hn, List.append_assoc]⟩
  have htail {s : Text} (hs : s <:+ oldRest) (hs' : s <:+ newRest) :
      s.byteLength ≤ (sharedTail old new).byteLength :=
    Text.byteLength_le_of_suffix (suffix_sharedTail hs hs')
  have hro : rest <:+ old := ⟨before ++ removed, ho.symm⟩
  have hrn : rest <:+ new := ⟨before ++ inserted, hn.symm⟩
  have hoo : oldRest <:+ old := ⟨shared, hold⟩
  have hnn : newRest <:+ new := ⟨shared, hnew⟩
  -- If the end reaches into the shared beginning, one of the two rests is the end of the other one.
  have hwhole (h : oldRest <:+ newRest ∨ newRest <:+ oldRest) :
      before.byteLength + rest.byteLength ≤ shared.byteLength + (sharedTail old new).byteLength := by
    rcases h with h | h
    · have hh := htail (List.suffix_refl _) h
      omega
    · have hh := htail h (List.suffix_refl _)
      omega
  change before.byteLength + rest.byteLength ≤ shared.byteLength + (sharedTail old new).byteLength
  rcases List.suffix_or_suffix_of_suffix hro hoo with hrest | hrest
  · rcases List.suffix_or_suffix_of_suffix hrn hnn with hrest' | hrest'
    · have hh := htail hrest hrest'
      omega
    · exact hwhole (List.suffix_or_suffix_of_suffix hoo (hrest'.trans hro))
  · exact hwhole (List.suffix_or_suffix_of_suffix (hrest.trans hrn) hnn)

theorem between_eq_none : between old new = none ↔ old = new := by
  refine ⟨eq_of_between, ?_⟩
  rintro rfl
  exact if_pos rfl

theorem between_le {d : Delta} (h : between old new = some d) {start oldEnd newEnd : Nat}
    (ht : Turns old new start oldEnd newEnd) :
    d.oldEnd - d.start ≤ oldEnd - start ∧ d.newEnd - d.start ≤ newEnd - start := by
  have hne : old ≠ new := fun he => by simp [between_eq_none.2 he] at h
  obtain ⟨removed, inserted, hold, hnew, hd⟩ := exists_parts old new
  obtain ⟨before, removed', inserted', rest, ho, hn, rfl, rfl, rfl⟩ := turns_iff.1 ht
  have hkept := kept_le ho hn
  have holdLen := congrArg Text.byteLength (hold.trans ho)
  have hnewLen := congrArg Text.byteLength (hnew.trans hn)
  cases (hd hne).symm.trans h
  simp only [ofParts, Text.byteLength_append] at holdLen hnewLen ⊢
  omega

/-- Two texts have no delta exactly if they are equal.  Otherwise their delta turns the one into the
other, no other stretch that does so removes or inserts fewer bytes, and its points are those of its
offsets. -/
theorem between_least (old new : Text) :
    (between old new = none ↔ old = new) ∧
    ∀ d, between old new = some d →
      Turns old new d.start d.oldEnd d.newEnd ∧
      (∀ start oldEnd newEnd, Turns old new start oldEnd newEnd →
        d.oldEnd - d.start ≤ oldEnd - start ∧ d.newEnd - d.start ≤ newEnd - start) ∧
      d.startPoint.Marks old d.start ∧ d.oldEndPoint.Marks old d.oldEnd ∧
      d.newEndPoint.Marks new d.newEnd := by
  refine ⟨between_eq_none, fun d h => ?_⟩
  obtain ⟨before, removed, inserted, rest, hold, hnew, hstart, holdEnd, hnewEnd, hs, ho, hn⟩ :=
    between_describes h
  exact ⟨turns_iff.2 ⟨before, removed, inserted, rest, hold, hnew, hstart, holdEnd, hnewEnd⟩,
    fun _ _ _ ht => between_le h ht, Point.marks_of_eq hs, Point.marks_of_eq ho,
    Point.marks_of_eq hn⟩

/-- Two equal lines, and then a letter that differs from theirs in its last byte only. -/
def equalLines : Text := "è\nè\né".toList

theorem between_least_equalLines :
    between equalLines "è\né".toList = some ⟨3, 6, 3, ⟨1, 0⟩, ⟨2, 0⟩, ⟨1, 0⟩⟩ ∧
    Turns equalLines "è\né".toList 0 3 0 ∧ Turns equalLines "è\né".toList 3 6 3 ∧
    (6 - 3 ≤ 3 - 0 ∧ 3 - 3 ≤ 0 - 0) ∧ Point.Marks ⟨2, 0⟩ equalLines 6 := by
  have hd : between equalLines "è\né".toList = some ⟨3, 6, 3, ⟨1, 0⟩, ⟨2, 0⟩, ⟨1, 0⟩⟩ := by decide
  -- Taking the first line away instead of the second one does it too.
  have hfirst : Turns equalLines "è\né".toList 0 3 0 :=
    turns_iff.2 ⟨[], "è\n".toList, [], "è\né".toList, rfl, rfl, rfl, rfl, rfl⟩
  obtain ⟨hturns, hleast, _, hpoint, _⟩ := (between_least _ _).2 _ hd
  exact ⟨hd, hfirst, hturns, hleast 0 3 0 hfirst, hpoint⟩

end Delta

end ModuleLens
