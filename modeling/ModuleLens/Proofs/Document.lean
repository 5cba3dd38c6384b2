import ModuleLens.Document
import ModuleLens.Proofs.Text.Slices

/-! Edits of documents.  An edit of a range cuts the text at the byte offsets of its two ends and
puts the new text between them.  A batch of such edits does what its edits do one at a time.  An
edit is refused exactly if an end does not address the text or if the ends come in the wrong order;
they are compared after rounding, so a start inside a pair may come after a stop at the start of the
pair. -/

namespace ModuleLens

namespace Text

/-- Two addressed positions are in order after rounding exactly if they are in order, or the first
splits the pair at whose start the second is. -/
theorem charOffset_le_iff {t : Text} {p q : Position} {n m : Nat} (hp : t.charOffset p = .ok n)
    (hq : t.charOffset q = .ok m) :
    n ≤ m ↔ p.before q ∨ p.Splits t ∧ p = ⟨q.line, q.character + 1⟩ := by
  constructor
  · intro hle
    by_cases hb : p.before q
    · exact .inl hb
    · -- in the wrong order, but not after rounding: both cut at the same place
      have heq : n = m := Nat.le_antisymm hle (charOffset_mono (Position.before_of_not hb) hq hp)
      obtain ⟨head, rest, rfl, hcut, rfl⟩ := charOffset_eq_ok.1 hp
      obtain ⟨head', rest', ht, hcut', rfl⟩ := charOffset_eq_ok.1 hq
      obtain ⟨rfl, rfl⟩ := List.append_inj ht heq
      have hs : p.Splits (head ++ rest) := by
        refine Classical.byContradiction fun hs => hb ?_
        rw [hcut.whole hs]
        exact hcut'.before
      have hq : q = .ofText head := by
        refine hcut'.whole fun hs' => hb ?_
        rw [hcut.split hs, ← hcut'.split hs']
        exact Position.before_refl q
      exact .inr ⟨hs, hq ▸ hcut.split hs⟩
  · rintro (hb | ⟨hs, hpq⟩)
    · exact charOffset_mono hb hp hq
    · obtain ⟨head, rest, rfl, hcut, rfl⟩ := charOffset_eq_ok.1 hp
      have hstart : q = .ofText head := by
        have hh := (hcut.split hs).symm.trans hpq
        obtain ⟨line, character⟩ := q
        simp only [Position.mk.injEq, Nat.add_right_cancel_iff] at hh
        rw [← hh.1, ← hh.2]
      rw [charOffset_eq_ok.2 ⟨head, rest, rfl, .inl hstart, rfl⟩] at hq
      cases hq
      exact Nat.le_refl _

end Text

namespace Document

variable {d : Document} {next : Option Int} {t u new : Text} {r : Range}

theorem splice_eq_ok :
    splice t r new = .ok u ↔
      ∃ a b, t.charOffset r.start = .ok a ∧ t.charOffset r.stop = .ok b ∧ a ≤ b ∧
        u = t.take a ++ (new ++ t.drop b) := by
  rw [splice]
  cases t.charOffset r.start with
  | error e => simp
  | ok a =>
    cases t.charOffset r.stop with
    | error e => simp
    | ok b =>
      by_cases hab : a ≤ b
      · simpa [hab] using eq_comm
      · simp [hab]

theorem splice_eq_error {e : EditError} (h : splice t r new = .error e) :
    e = .invalidRange (some r) := by
  rw [splice] at h
  split at h
  · split at h
    · cases h
    · cases h
      rfl
  · cases h
    rfl

theorem exists_splice :
    (∃ u, splice t r new = .ok u) ↔
      r.start.Addresses t ∧ r.stop.Addresses t ∧
        (r.start.before r.stop ∨
          r.start.Splits t ∧ r.start = ⟨r.stop.line, r.stop.character + 1⟩) := by
  rw [← Text.exists_charOffset, ← Text.exists_charOffset]
  constructor
  · rintro ⟨u, hu⟩
    obtain ⟨a, b, ha, hb, hab, _⟩ := splice_eq_ok.1 hu
    exact ⟨⟨a, ha⟩, ⟨b, hb⟩, (Text.charOffset_le_iff ha hb).1 hab⟩
  · rintro ⟨⟨a, ha⟩, ⟨b, hb⟩, hab⟩
    exact ⟨_, splice_eq_ok.2 ⟨a, b, ha, hb, (Text.charOffset_le_iff ha hb).2 hab, rfl⟩⟩

/-- An edit keeps the bytes before the offset of its start and those from the offset of its stop
on. -/
theorem splice_bytes (h : splice t r new = .ok u) :
    ∃ a b head tail, t.offsetOf r.start = .ok a ∧ t.offsetOf r.stop = .ok b ∧ a ≤ b ∧
      t.takeBytes? a = some head ∧ t.dropBytes? b = some tail ∧ u = head ++ (new ++ tail) := by
  obtain ⟨n, m, hn, hm, hnm, rfl⟩ := splice_eq_ok.1 h
  obtain ⟨head, rest, ht, hcut, rfl⟩ := Text.charOffset_eq_ok.1 hn
  obtain ⟨head', tail, ht', hcut', rfl⟩ := Text.charOffset_eq_ok.1 hm
  have ha := Text.offsetOf_eq_ok.2 ⟨head, rest, ht, hcut, rfl⟩
  have hb := Text.offsetOf_eq_ok.2 ⟨head', tail, ht', hcut', rfl⟩
  have hpre : head <+: head' :=
    List.prefix_of_prefix_length_le ⟨rest, ht.symm⟩ ⟨tail, ht'.symm⟩ hnm
  refine ⟨_, _, head, tail, ha, hb, Text.byteLength_le_of_prefix hpre, ?_, ?_, ?_⟩
  · rw [ht, Text.takeBytes?_append]
  · rw [ht', Text.dropBytes?_append]
  · conv => lhs; arg 1; rw [ht, List.take_left]
    rw [ht', List.drop_left]

theorem applyChange_eq_error {alone : Bool} {change : Change} {e : EditError}
    (h : applyChange alone t change = .error e) : ∃ r, e = .invalidRange r := by
  rw [applyChange] at h
  split at h
  · next r _ => exact ⟨some r, splice_eq_error h⟩
  · split at h
    · cases h
    · cases h
      exact ⟨none, rfl⟩

theorem applyChange_ranged {change : Change} (h : change.range.isSome) (alone : Bool) (t : Text) :
    applyChange alone t change = applyChange true t change := by
  obtain ⟨r, hr⟩ := Option.isSome_iff_exists.1 h
  rw [applyChange, applyChange, hr]

theorem applyChange_alone {alone : Bool} {change : Change}
    (h : applyChange alone t change = .ok u) : applyChange true t change = .ok u := by
  rw [applyChange] at h ⊢
  split at h
  · exact h
  · split at h
    · exact h
    · cases h

theorem apply_of_fresh (h : d.isStale next = none) (changes : List Change) :
    d.apply changes next =
      (changes.foldlM (applyChange (changes.length == 1)) d.text).map fun text =>
        ⟨d.uri, next, text⟩ := by
  rw [Document.apply, h]
  rfl

theorem apply_eq_ok {old new : Document} {changes : List Change}
    (h : old.apply changes next = .ok new) :
    new.uri = old.uri ∧ new.version = next ∧ old.isStale next = none ∧
      changes.foldlM (applyChange (changes.length == 1)) old.text = .ok new.text := by
  rw [Document.apply] at h
  split at h
  · cases h
  · next hs =>
    cases ht : changes.foldlM (applyChange (changes.length == 1)) old.text with
    | error e =>
      rw [ht] at h
      cases h
    | ok text =>
      rw [ht] at h
      cases h
      exact ⟨rfl, rfl, hs, rfl⟩

theorem isStale_self (uri : Uri) (next : Option Int) (text : Text) :
    (Document.mk uri next text).isStale next = none := by
  cases next with
  | none => rfl
  | some version => exact if_neg (Int.lt_irrefl version)

theorem apply_alone (h : d.isStale next = none) (change : Change) :
    d.apply [change] next =
      (applyChange true d.text change).map fun text => ⟨d.uri, next, text⟩ := by
  have hone : [change].foldlM (applyChange true) d.text = applyChange true d.text change :=
    List.foldlM_cons.trans (bind_pure _)
  rw [apply_of_fresh h, ← hone]
  rfl

theorem apply_single (h : d.isStale next = none) {change : Change} (hr : change.range.isSome)
    (alone : Bool) :
    d.apply [change] next =
      (applyChange alone d.text change).map fun text => ⟨d.uri, next, text⟩ := by
  rw [apply_alone h, applyChange_ranged hr alone]

/-- After the first edit the version stays, so the text alone goes through the edits. -/
theorem foldlM_apply (uri : Uri) (next : Option Int) (alone : Bool) {changes : List Change}
    (h : ∀ change ∈ changes, change.range.isSome) (text : Text) :
    changes.foldlM (fun d change => d.apply [change] next) (Document.mk uri next text) =
      (changes.foldlM (applyChange alone) text).map fun text => ⟨uri, next, text⟩ := by
  induction changes generalizing text with
  | nil => rfl
  | cons change changes ih =>
    rw [List.foldlM_cons, List.foldlM_cons,
      apply_single (isStale_self uri next text) (h change List.mem_cons_self) alone]
    cases applyChange alone text change with
    | error e => rfl
    | ok u => exact ih (fun c hc => h c (List.mem_cons_of_mem change hc)) u

theorem apply_batch (hs : d.isStale next = none) {changes : List Change} (hne : changes ≠ [])
    (h : ∀ change ∈ changes, change.range.isSome) :
    d.apply changes next = changes.foldlM (fun d change => d.apply [change] next) d := by
  cases changes with
  | nil => exact absurd rfl hne
  | cons change changes =>
    let alone := (change :: changes).length == 1
    rw [apply_of_fresh hs, List.foldlM_cons, List.foldlM_cons,
      apply_single hs (h change List.mem_cons_self) alone]
    cases applyChange alone d.text change with
    | error e => rfl
    | ok u =>
      have hrest : ∀ c ∈ changes, c.range.isSome := fun c hc =>
        h c (List.mem_cons_of_mem change hc)
      exact (foldlM_apply d.uri next alone hrest u).symm

theorem foldlM_mixed {changes : List Change} (h : ∃ change ∈ changes, change.range = none)
    (t : Text) : ∃ r, changes.foldlM (applyChange false) t = .error (.invalidRange r) := by
  induction changes generalizing t with
  | nil =>
    obtain ⟨change, hm, _⟩ := h
    cases hm
  | cons first changes ih =>
    rw [List.foldlM_cons]
    cases ha : applyChange false t first with
    | error e =>
      obtain ⟨r, rfl⟩ := applyChange_eq_error ha
      exact ⟨r, rfl⟩
    | ok u =>
      obtain ⟨change, hm, hc⟩ := h
      rcases List.mem_cons.1 hm with rfl | hm
      · rw [applyChange, hc] at ha
        cases ha
      · exact ih ⟨change, hm, hc⟩ u

theorem apply_ranged (h : d.isStale next = none) (r : Range) (new : Text) :
    d.apply [⟨some r, new⟩] next = (splice d.text r new).map fun text => ⟨d.uri, next, text⟩ :=
  apply_single h rfl true

theorem apply_ranged_ok {d' : Document} (h : d.apply [⟨some r, new⟩] next = .ok d') :
    d'.uri = d.uri ∧ d'.version = next ∧ splice d.text r new = .ok d'.text := by
  cases hs : d.isStale next with
  | some versions =>
    rw [Document.apply, hs] at h
    cases h
  | none =>
    rw [apply_ranged hs] at h
    cases hu : splice d.text r new with
    | error e =>
      rw [hu] at h
      cases h
    | ok u =>
      rw [hu] at h
      cases h
      exact ⟨rfl, rfl, rfl⟩

end Document

open Document

/-- A batch of ranged edits does what its edits do one at a time, failures included.  Each edit puts
its text between the bytes before the offset of its start and those from the offset of its stop on.
A batch in which an edit without a range is not alone fails. -/
theorem batch_eq_single_edits (d : Document) (next : Option Int) :
    (d.isStale next = none → ∀ changes, changes ≠ [] →
      (∀ change ∈ changes, change.range.isSome) →
      d.apply changes next = changes.foldlM (fun d change => d.apply [change] next) d) ∧
    (∀ (r : Range) (new : Text) (d' : Document), d.apply [⟨some r, new⟩] next = .ok d' →
      d'.uri = d.uri ∧ d'.version = next ∧
      ∃ a b head tail, d.text.offsetOf r.start = .ok a ∧ d.text.offsetOf r.stop = .ok b ∧ a ≤ b ∧
        d.text.takeBytes? a = some head ∧ d.text.dropBytes? b = some tail ∧
        d'.text = head ++ (new ++ tail)) ∧
    (∀ changes, 2 ≤ changes.length → (∃ change ∈ changes, change.range = none) →
      ∃ e, d.apply changes next = .error e ∧
        (d.isStale next = none → ∃ r, e = .invalidRange r)) := by
  refine ⟨fun hs changes hne hr => apply_batch hs hne hr, fun r new d' h => ?_,
    fun changes hlen hmixed => ?_⟩
  · obtain ⟨huri, hversion, htext⟩ := apply_ranged_ok h
    exact ⟨huri, hversion, splice_bytes htext⟩
  · cases hs : d.isStale next with
    | some versions =>
      refine ⟨.staleVersion versions.1 versions.2, ?_, nofun⟩
      rw [Document.apply, hs]
    | none =>
      have halone : (changes.length == 1) = false := by
        rw [beq_eq_false_iff_ne]
        omega
      obtain ⟨r, hr⟩ := foldlM_mixed hmixed d.text
      refine ⟨.invalidRange r, ?_, fun _ => ⟨r, rfl⟩⟩
      rw [apply_of_fresh hs, halone, hr]
      rfl

/-- A document of one line with a pair in it. -/
def pairDocument : Document :=
  ⟨⟨"file:///pair.pkl".toList, by decide⟩, some 1, ['a', '😀', 'b']⟩

/-- Two edits: a line feed goes in before the pair, and then the letter after the pair, now on the
second line, is replaced. -/
def pairChanges : List Change :=
  [⟨some ⟨⟨0, 1⟩, ⟨0, 2⟩⟩, ['\n']⟩, ⟨some ⟨⟨1, 2⟩, ⟨1, 3⟩⟩, ['c', 'd']⟩]

theorem batch_eq_single_edits_pair :
    pairDocument.isStale (some 2) = none ∧
    (∀ change ∈ pairChanges, change.range.isSome) ∧
    pairDocument.apply pairChanges (some 2) =
      pairChanges.foldlM (fun d change => d.apply [change] (some 2)) pairDocument ∧
    pairDocument.apply pairChanges (some 2) =
      .ok ⟨pairDocument.uri, some 2, ['a', '\n', '😀', 'c', 'd']⟩ ∧
    ∃ r, pairDocument.apply (⟨none, []⟩ :: pairChanges) (some 2) = .error (.invalidRange r) := by
  obtain ⟨hbatch, _, hmixed⟩ := batch_eq_single_edits pairDocument (some 2)
  have hs : pairDocument.isStale (some 2) = none := by decide
  have hr : ∀ change ∈ pairChanges, change.range.isSome := by decide
  obtain ⟨e, he, hrange⟩ := hmixed (⟨none, []⟩ :: pairChanges) (by decide)
    ⟨⟨none, []⟩, List.mem_cons_self, rfl⟩
  obtain ⟨r, rfl⟩ := hrange hs
  exact ⟨hs, hr, hbatch hs pairChanges (List.cons_ne_nil _ _) hr, by decide, r, he⟩

/-- A ranged edit with a version that is not stale is accepted exactly if both ends address the text
and are in order, or the start splits the pair at whose start the stop is; else it is refused with
its range. -/
theorem edit_accepted_iff {d : Document} {next : Option Int} (hs : d.isStale next = none)
    (r : Range) (new : Text) :
    ((∃ d', d.apply [⟨some r, new⟩] next = .ok d') ↔
      r.start.Addresses d.text ∧ r.stop.Addresses d.text ∧
        (r.start.before r.stop ∨
          r.start.Splits d.text ∧ r.start = ⟨r.stop.line, r.stop.character + 1⟩)) ∧
    ((∀ d', d.apply [⟨some r, new⟩] next ≠ .ok d') →
      d.apply [⟨some r, new⟩] next = .error (.invalidRange (some r))) := by
  rw [← exists_splice, apply_ranged hs]
  cases hu : splice d.text r new with
  | error e =>
    cases splice_eq_error hu
    exact ⟨⟨nofun, nofun⟩, fun _ => rfl⟩
  | ok u => exact ⟨⟨fun _ => ⟨u, rfl⟩, fun _ => ⟨_, rfl⟩⟩, fun hno => absurd rfl (hno _)⟩

theorem edit_accepted_iff_pair :
    pairDocument.isStale (some 2) = none ∧
    (∃ d', pairDocument.apply [⟨some ⟨⟨0, 2⟩, ⟨0, 1⟩⟩, ['x']⟩] (some 2) = .ok d') ∧
    pairDocument.apply [⟨some ⟨⟨0, 3⟩, ⟨0, 1⟩⟩, ['x']⟩] (some 2) =
      .error (.invalidRange (some ⟨⟨0, 3⟩, ⟨0, 1⟩⟩)) := by
  have hs : pairDocument.isStale (some 2) = none := by decide
  have hline : pairDocument.text.lines[0]? = some ['a', '😀', 'b'] := by decide
  have hsplit : Position.Splits ⟨0, 2⟩ pairDocument.text :=
    ⟨['a'], '😀', ['b'], hline, by decide, by decide⟩
  refine ⟨hs, (edit_accepted_iff hs _ _).1.2 ⟨⟨_, hline, by decide⟩, ⟨_, hline, by decide⟩, ?_⟩,
    (edit_accepted_iff hs _ _).2 ?_⟩
  · exact .inr ⟨hsplit, rfl⟩
  · intro d' h
    cases h

/-- A range whose start comes after its stop is accepted if its start lies inside the pair at whose
start its stop is. -/
theorem reversed_range_accepted :
    pairDocument.isStale (some 2) = none ∧
    pairDocument.apply [⟨some ⟨⟨0, 2⟩, ⟨0, 1⟩⟩, ['x']⟩] (some 2) =
      .ok ⟨pairDocument.uri, some 2, ['a', 'x', '😀', 'b']⟩ ∧
    ¬ ((∃ d', pairDocument.apply [⟨some ⟨⟨0, 2⟩, ⟨0, 1⟩⟩, ['x']⟩] (some 2) = .ok d') ↔
      Position.Addresses ⟨0, 2⟩ pairDocument.text ∧ Position.Addresses ⟨0, 1⟩ pairDocument.text ∧
        Position.before ⟨0, 2⟩ ⟨0, 1⟩) := by
  have hok : pairDocument.apply [⟨some ⟨⟨0, 2⟩, ⟨0, 1⟩⟩, ['x']⟩] (some 2) =
      .ok ⟨pairDocument.uri, some 2, ['a', 'x', '😀', 'b']⟩ := by decide
  refine ⟨by decide, hok, fun h => ?_⟩
  have hbefore := (h.1 ⟨_, hok⟩).2.2
  exact absurd hbefore (by decide)

end ModuleLens
