import Mathlib.Data.List.DropRight
import Mathlib.Data.List.Sort
import Mathlib.Data.List.TakeWhile
import ModuleLens.Outline
import ModuleLens.Proofs.Text.Stretches

/-! Words of a stretch of text.  Reading goes by white space and runs of other scalars, so the words
of a stretch are its maximal runs, one after the other.  White space around a stretch makes no
difference. -/

namespace ModuleLens

namespace Outline

/-- A word that stands in a stretch, between white space or the ends of the stretch. -/
def Run (l : Stretch) (w : Word) : Prop :=
  ∃ pre post, l.text = pre ++ w.text ++ post ∧ w.start = l.start + pre.byteLength ∧
    w.text ≠ [] ∧ (∀ c ∈ w.text, Text.isSpace c = false) ∧
    (∀ c ∈ pre.getLast?, Text.isSpace c) ∧ ∀ c ∈ post.head?, Text.isSpace c

theorem words_space {c : Char} (hc : Text.isSpace c) (offset : Nat) (t : Text) :
    words offset (c :: t) = words (offset + c.utf8Size) t := by
  simp only [words]
  rw [if_pos hc]

theorem words_run {r rest : Text} (hr : r ≠ []) (hs : ∀ c ∈ r, Text.isSpace c = false)
    (hrest : ∀ c ∈ rest.head?, Text.isSpace c) (offset : Nat) :
    words offset (r ++ rest) = ⟨offset, r⟩ :: words (offset + r.byteLength) rest := by
  induction r generalizing offset with
  | nil => exact absurd rfl hr
  | cons c r ih =>
    have hc : Text.isSpace c = false := hs c List.mem_cons_self
    cases r with
    | nil =>
      rw [List.singleton_append, words, Text.byteLength_cons, Text.byteLength_nil, Nat.add_zero]
      simp only [hc, Bool.false_eq_true, if_false]
      split
      · next d w ws hd hw =>
        rw [if_pos (hrest d hd), hw]
      · rfl
    | cons d r =>
      have hd : Text.isSpace d = false := hs d (List.mem_cons_of_mem c List.mem_cons_self)
      have hh := ih (List.cons_ne_nil d r) (fun e he => hs e (List.mem_cons_of_mem c he))
        (offset + c.utf8Size)
      rw [List.cons_append, words, hh, Text.byteLength_cons, Nat.add_assoc]
      simp [hc, hd]

/-- White space is left out, and then a run is read as a whole. -/
@[elab_as_elim]
theorem wordInduction {motive : Text → Prop} (nil : motive [])
    (space : ∀ c t, Text.isSpace c → motive t → motive (c :: t))
    (run : ∀ r rest, r ≠ [] → (∀ c ∈ r, Text.isSpace c = false) →
      (∀ c ∈ rest.head?, Text.isSpace c) → motive rest → motive (r ++ rest))
    (t : Text) : motive t := by
  match t with
  | [] => exact nil
  | c :: t =>
    by_cases hc : Text.isSpace c
    · exact space c t hc (wordInduction nil space run t)
    · let p : Char → Bool := fun d => !Text.isSpace d
      have hp : p c := by simp [p, hc]
      have hsplit : (c :: t).takeWhile p ++ (c :: t).dropWhile p = c :: t :=
        List.takeWhile_append_dropWhile
      have hshort : ((c :: t).dropWhile p).length < (c :: t).length := by
        rw [List.dropWhile_cons_of_pos hp]
        exact Nat.lt_succ_of_le (List.length_dropWhile_le p t)
      rw [← hsplit]
      refine run _ _ ?_ (fun d hd => ?_) (fun d hd => ?_) (wordInduction nil space run _)
      · rw [List.takeWhile_cons_of_pos hp]
        exact List.cons_ne_nil _ _
      · simpa [p] using List.mem_takeWhile_imp hd
      · have hh := List.head?_dropWhile_not p (c :: t)
        rw [Option.mem_def.1 hd] at hh
        simpa [p] using hh
termination_by t.length
decreasing_by
  · exact Nat.lt_succ_self t.length
  · exact hshort

theorem run_of_mem_words {offset : Nat} {t : Text} {w : Word} (h : w ∈ words offset t) :
    Run ⟨offset, t⟩ w := by
  induction t using wordInduction generalizing offset with
  | nil => cases h
  | space c t hc ih =>
    rw [words_space hc] at h
    obtain ⟨pre, post, ht, hs, hne, hw, hpre, hpost⟩ := ih h
    refine ⟨c :: pre, post, congrArg (c :: ·) ht, ?_, hne, hw, fun d hd => ?_, hpost⟩
    · rw [hs, Text.byteLength_cons, Nat.add_assoc]
    · rw [List.getLast?_cons] at hd
      cases hl : pre.getLast? with
      | none =>
        rw [hl] at hd
        cases hd
        exact hc
      | some e =>
        rw [hl] at hd
        cases hd
        exact hpre _ hl
  | run r rest hr hs hrest ih =>
    rw [words_run hr hs hrest] at h
    rcases List.mem_cons.1 h with rfl | h
    · exact ⟨[], rest, rfl, rfl, hr, hs, nofun, hrest⟩
    · obtain ⟨pre, post, ht, hw, hne, hns, hpre, hpost⟩ := ih h
      change rest = _ at ht
      have hpre' : pre ≠ [] := by
        -- a word right after the run would start with white space
        rintro rfl
        obtain ⟨e, more, he⟩ := List.exists_cons_of_ne_nil hne
        rw [ht, he] at hrest
        have hspace := hrest e rfl
        rw [hns e (he ▸ List.mem_cons_self)] at hspace
        cases hspace
      refine ⟨r ++ pre, post, ?_, ?_, hne, hns, fun d hd => hpre d ?_, hpost⟩
      · change r ++ rest = _
        rw [ht]
        simp only [List.append_assoc]
      · rw [hw, Text.byteLength_append, Nat.add_assoc]
      · rwa [List.getLast?_append_of_ne_nil _ hpre'] at hd

theorem run_append_cases {r rest : Text} (hs : ∀ c ∈ r, Text.isSpace c = false)
    (hrest : ∀ c ∈ rest.head?, Text.isSpace c) {offset : Nat} {w : Word}
    (h : Run ⟨offset, r ++ rest⟩ w) :
    w = ⟨offset, r⟩ ∨ Run ⟨offset + r.byteLength, rest⟩ w := by
  obtain ⟨pre, post, ht, hstart, hne, hw, hpre, hpost⟩ := h
  dsimp only at ht hstart
  by_cases hempty : pre = []
  · -- both start the text and go as far as there is no white space
    have hrun {x more : Text} (hx : ∀ c ∈ x, Text.isSpace c = false)
        (hmore : ∀ c ∈ more.head?, Text.isSpace c) :
        (x ++ more).takeWhile (fun c => !Text.isSpace c) = x := by
      rw [List.takeWhile_append_of_pos fun c hc => by simp [hx c hc]]
      cases more with
      | nil => simp
      | cons c more => simp [hmore c rfl]
    subst hempty
    rw [List.nil_append] at ht
    have hh := hrun hw hpost
    rw [← ht, hrun hs hrest] at hh
    left
    cases w
    simp_all
  · right
    rcases List.append_eq_append_iff.1 (ht.trans (List.append_assoc ..)) with
      ⟨more, hmore, hrest'⟩ | ⟨more, hmore, -⟩
    · refine ⟨more, post, hrest'.trans (List.append_assoc ..).symm, ?_, hne, hw, fun c hc => ?_,
        hpost⟩
      · rw [hstart, hmore, Text.byteLength_append, Nat.add_assoc]
      · refine hpre c ?_
        rw [hmore, List.getLast?_append, hc]
        rfl
    · -- what stands before the word ends with white space, so it is no part of the run
      have hlast := List.getLast_mem hempty
      have hspace := hpre _ (List.getLast?_eq_some_getLast hempty)
      rw [hs _ (hmore ▸ List.mem_append_left _ hlast)] at hspace
      cases hspace

theorem mem_words_iff {offset : Nat} {t : Text} {w : Word} :
    w ∈ words offset t ↔ Run ⟨offset, t⟩ w := by
  refine ⟨run_of_mem_words, fun h => ?_⟩
  induction t using wordInduction generalizing offset with
  | nil =>
    obtain ⟨pre, post, ht, _, hne, _⟩ := h
    exact absurd (List.append_eq_nil_iff.1 (List.append_eq_nil_iff.1 ht.symm).1).2 hne
  | space c t hc ih =>
    rw [words_space hc]
    obtain ⟨pre, post, ht, hs, hne, hw, hpre, hpost⟩ := h
    cases pre with
    | nil =>
      -- the word would start with white space
      obtain ⟨e, more, he⟩ := List.exists_cons_of_ne_nil hne
      rw [he] at ht hw
      cases ht
      rw [hw c List.mem_cons_self] at hc
      cases hc
    | cons d pre =>
      cases ht
      refine ih ⟨pre, post, rfl, ?_, hne, hw, fun e he => hpre e ?_, hpost⟩
      · rw [hs, Text.byteLength_cons, Nat.add_assoc]
      · rw [List.getLast?_cons, he]
        rfl
  | run r rest hr hs hrest ih =>
    rw [words_run hr hs hrest, List.mem_cons]
    exact (run_append_cases hs hrest h).imp_right ih

/-- White space around a stretch makes no difference to the words in it. -/
theorem Run.widen {l : Stretch} {w : Word} (h : Run l w) {lead trail : Text}
    (hlead : ∀ c ∈ lead, Text.isSpace c) (htrail : ∀ c ∈ trail, Text.isSpace c) {start : Nat}
    (hs : l.start = start + lead.byteLength) : Run ⟨start, lead ++ l.text ++ trail⟩ w := by
  obtain ⟨pre, post, ht, hw, hne, hns, hpre, hpost⟩ := h
  refine ⟨lead ++ pre, post ++ trail, ?_, ?_, hne, hns, fun c hc => ?_, fun c hc => ?_⟩
  · rw [ht]
    simp only [List.append_assoc]
  · rw [hw, hs, Text.byteLength_append, Nat.add_assoc]
  · rw [List.getLast?_append, Option.mem_def, Option.or_eq_some_iff] at hc
    rcases hc with hc | ⟨_, hc⟩
    · exact hpre c hc
    · exact hlead c (List.mem_of_getLast? hc)
  · rw [List.head?_append, Option.mem_def, Option.or_eq_some_iff] at hc
    rcases hc with hc | ⟨_, hc⟩
    · exact hpost c hc
    · exact htrail c (List.mem_of_head? hc)

theorem span_lt_of_mem_words {offset : Nat} {t : Text} {w : Word} (h : w ∈ words offset t) :
    w.span.start < w.span.stop := by
  obtain ⟨pre, post, _, _, hne, _⟩ := run_of_mem_words h
  have hpos : 0 < w.text.byteLength :=
    Nat.pos_of_ne_zero fun h0 => hne (Text.byteLength_eq_zero.1 h0)
  exact Nat.lt_add_of_pos_right hpos

/-- The last word of a stretch that does not end in white space ends where the stretch does. -/
theorem getLast?_words {l : Stretch} (h : l.Tight) :
    ∃ w, (words l.start l.text).getLast? = some w ∧ w.span.stop = l.span.stop := by
  obtain ⟨offset, t⟩ := l
  obtain ⟨hne, hlast⟩ := h
  dsimp only at hne hlast ⊢
  induction t using wordInduction generalizing offset with
  | nil => exact absurd rfl hne
  | space c t hc ih =>
    have ht : t ≠ [] := by
      rintro rfl
      rw [hlast c rfl] at hc
      cases hc
    rw [words_space hc]
    obtain ⟨w, hw, hstop⟩ := ih (offset + c.utf8Size) ht fun d hd => hlast d (by
      rw [List.getLast?_cons_of_ne_nil ht]
      exact hd)
    refine ⟨w, hw, hstop.trans ?_⟩
    simp only [Stretch.span, Text.byteLength_cons, Nat.add_assoc]
  | run r rest hr hs hrest ih =>
    rw [words_run hr hs hrest]
    by_cases hempty : rest = []
    · subst hempty
      refine ⟨⟨offset, r⟩, rfl, ?_⟩
      simp [Word.span, Stretch.span]
    · obtain ⟨w, hw, hstop⟩ := ih (offset + Text.byteLength r) hempty fun d hd => hlast d (by
        rw [List.getLast?_append_of_ne_nil _ hempty]
        exact hd)
      refine ⟨w, ?_, hstop.trans ?_⟩
      · rw [List.getLast?_cons, hw]
        rfl
      · simp only [Stretch.span, Text.byteLength_append, Nat.add_assoc]

theorem words_holds (offset : Nat) (t : Text) :
    (Stretch.mk offset t).span.Holds ((words offset t).map Word.span) := by
  induction t using wordInduction generalizing offset with
  | nil => exact ⟨nofun, .nil⟩
  | space c t hc ih =>
    rw [words_space hc]
    refine (ih (offset + c.utf8Size)).widen (Nat.le_add_right _ _) (Nat.le_of_eq ?_)
    rw [Stretch.span, Stretch.span, Text.byteLength_cons, Nat.add_assoc]
  | run r rest hr hs hrest ih =>
    rw [words_run hr hs hrest, List.map_cons]
    have hword : (Word.mk offset r).span.Holds [(Word.mk offset r).span] :=
      Span.holds_singleton (Nat.le_add_right _ _)
    have hh := hword.append (ih (offset + Text.byteLength r)) (Nat.le_add_right _ _)
      (Nat.le_add_right _ _) (Nat.le_refl _)
    refine hh.widen (Nat.le_refl _) (Nat.le_of_eq ?_)
    change offset + Text.byteLength r + Text.byteLength rest = offset + Text.byteLength (r ++ rest)
    rw [Text.byteLength_append, Nat.add_assoc]

/-- The words of a stretch are all the runs in it, in the order in which they stand. -/
theorem words_eq_iff {offset : Nat} {t : Text} {ws : List Word} :
    words offset t = ws ↔
      (∀ w, w ∈ ws ↔ Run ⟨offset, t⟩ w) ∧ ws.Pairwise fun v w => v.span.stop ≤ w.start := by
  have hwords : (words offset t).Pairwise fun v w => v.span.stop ≤ w.start :=
    List.pairwise_map.1 (words_holds offset t).pairwise
  constructor
  · rintro rfl
    exact ⟨fun w => mem_words_iff, hwords⟩
  · rintro ⟨hws, hsorted⟩
    have hmem (w : Word) : w ∈ words offset t ↔ w ∈ ws := mem_words_iff.trans (hws w).symm
    -- no run is empty, so that the order is a strict one
    have hstrict {vs : List Word} (hsub : ∀ v ∈ vs, v ∈ words offset t)
        (hv : vs.Pairwise fun v w => v.span.stop ≤ w.start) :
        vs.Pairwise fun v w => v.start < w.start :=
      hv.imp_of_mem fun hm _ hle => Nat.lt_of_lt_of_le (span_lt_of_mem_words (hsub _ hm)) hle
    have : Std.Irrefl fun v w : Word => v.start < w.start := ⟨fun v => Nat.lt_irrefl v.start⟩
    have : Std.Antisymm fun v w : Word => v.start < w.start :=
      ⟨fun v w h h' => absurd h' (Nat.lt_asymm h)⟩
    exact (hstrict (fun _ => id) hwords).eq_of_mem_iff
      (hstrict (fun v hv => (hmem v).2 hv) hsorted) hmem

end Outline

end ModuleLens
