import Mathlib.Data.List.Destutter
import ModuleLens.Proofs.Delta.Minimal
import ModuleLens.Proofs.Document
import ModuleLens.Proofs.TreeStore

/-! Replayed changes.  A batch that was accepted can be replayed change by change, though the replay
has no versions and takes every change as one that is alone.  A replay that comes to a text went
through the texts that the single changes leave; its deltas are those between the texts that differ
from the ones before them, and splicing one after another leads from the first text to the last. -/

namespace ModuleLens

namespace Delta

/-- A text with the stretch of a delta replaced by what the next text has in its place. -/
def splice? (d : Delta) (next t : Text) : Option Text := t.splice? next d.start d.oldEnd d.newEnd

theorem splice?_of_between {old new : Text} {d : Delta} (h : between old new = some d) :
    d.splice? new old = some new := by
  obtain ⟨before, removed, inserted, rest, hold, hnew, hstart, holdEnd, hnewEnd, _⟩ :=
    between_describes h
  have ht : Turns old new d.start d.oldEnd d.newEnd :=
    turns_iff.2 ⟨before, removed, inserted, rest, hold, hnew, hstart, holdEnd, hnewEnd⟩
  exact ht.splices

/-- The deltas of the steps of a list of texts. -/
def Steps (ds : List Delta) (texts : List Text) : Prop :=
  ds.map some = List.zipWith between texts texts.tail

theorem Steps.splices {first : Text} {rest : List Text} {ds : List Delta}
    (h : Steps ds (first :: rest)) :
    (ds.zip rest).foldlM (fun t step => step.1.splice? step.2 t) first =
      (first :: rest).getLast? := by
  induction rest generalizing first ds with
  | nil =>
    rw [List.zip_nil_right]
    rfl
  | cons next rest ih =>
    obtain ⟨d, ds, rfl⟩ : ∃ d ds', ds = d :: ds' := by
      cases ds with
      | nil => cases h
      | cons d ds => exact ⟨d, ds, rfl⟩
    obtain ⟨hd, hds⟩ := List.cons.inj h
    rw [List.zip_cons_cons, List.foldlM_cons, splice?_of_between hd.symm, List.getLast?_cons_cons]
    exact ih hds

end Delta

namespace TreeStore

theorem editsOf_of_foldlM {alone : Bool} {changes : List Change} {t u : Text}
    (h : changes.foldlM (Document.applyChange alone) t = .ok u) :
    ∃ ds, editsOf t changes = some (ds, u) := by
  induction changes generalizing t with
  | nil =>
    cases h
    exact ⟨[], rfl⟩
  | cons change changes ih =>
    rw [List.foldlM_cons] at h
    cases hc : Document.applyChange alone t change with
    | error e =>
      rw [hc] at h
      cases h
    | ok next =>
      rw [hc] at h
      obtain ⟨ds, hd⟩ := ih h
      -- A change that is accepted in a batch is also accepted alone, as the replay takes it.
      refine ⟨(Delta.between t next).toList ++ ds, ?_⟩
      rw [editsOf, Document.applyChange_alone hc]
      simp only [hd, Option.map_some]

theorem replay_of_apply {old new : Document} {changes : List Change} {next : Option Int}
    (h : old.apply changes next = .ok new) : ∃ ds, replay old changes new = some ds := by
  obtain ⟨ds, hd⟩ := editsOf_of_foldlM (Document.apply_eq_ok h).2.2.2
  exact ⟨ds, replay_eq_some.2 hd⟩

/-- Changes that are applied one at a time, without a version, and the text that each of them
leaves. -/
inductive Stages (uri : Uri) : Text → List Change → List Text → Prop
  | nil (t : Text) : Stages uri t [] []
  | cons {t next : Text} {change : Change} {changes : List Change} {texts : List Text}
      (h : (Document.mk uri none t).apply [change] none = .ok ⟨uri, none, next⟩)
      (hs : Stages uri next changes texts) : Stages uri t (change :: changes) (next :: texts)

/-- The texts of a list that differ from the ones before them, and the first one. -/
def distinct (texts : List Text) : List Text := texts.destutter (· ≠ ·)

theorem distinct_cons_self (t : Text) (texts : List Text) :
    distinct (t :: t :: texts) = distinct (t :: texts) :=
  List.destutter'_cons_neg _ (by simp)

theorem distinct_cons_of_ne {t next : Text} (h : t ≠ next) (texts : List Text) :
    distinct (t :: next :: texts) = t :: distinct (next :: texts) :=
  List.destutter'_cons_pos _ h

theorem distinct_cons (t : Text) (texts : List Text) :
    ∃ rest, distinct (t :: texts) = t :: rest ∧
      (t :: rest).getLast? = (t :: texts).getLast? := by
  induction texts generalizing t with
  | nil => exact ⟨[], rfl, rfl⟩
  | cons next texts ih =>
    obtain ⟨rest, hrest, hlast⟩ := ih next
    rw [List.getLast?_cons_cons, ← hlast]
    by_cases h : t = next
    · subst h
      exact ⟨rest, (distinct_cons_self t texts).trans hrest, rfl⟩
    · exact ⟨next :: rest, by rw [distinct_cons_of_ne h, hrest], List.getLast?_cons_cons⟩

theorem steps_cons {t next : Text} {texts : List Text} {ds : List Delta}
    (h : Delta.Steps ds (distinct (next :: texts))) :
    Delta.Steps ((Delta.between t next).toList ++ ds) (distinct (t :: next :: texts)) := by
  cases hb : Delta.between t next with
  | none =>
    cases Delta.eq_of_between hb
    rw [distinct_cons_self]
    exact h
  | some d =>
    have hne : t ≠ next := fun he => by simp [Delta.between_eq_none.2 he] at hb
    obtain ⟨rest, hrest, _⟩ := distinct_cons next texts
    rw [distinct_cons_of_ne hne]
    rw [hrest] at h ⊢
    simp only [Delta.Steps, Option.toList_some, List.singleton_append, List.map_cons,
      List.tail_cons, List.zipWith_cons_cons, hb] at h ⊢
    rw [h]

theorem stages_of_editsOf (uri : Uri) {t last : Text} {changes : List Change} {ds : List Delta}
    (h : editsOf t changes = some (ds, last)) :
    ∃ texts, Stages uri t changes texts ∧ (t :: texts).getLast? = some last ∧
      Delta.Steps ds (distinct (t :: texts)) := by
  induction changes generalizing t ds with
  | nil =>
    cases h
    exact ⟨[], .nil _, rfl, rfl⟩
  | cons change changes ih =>
    rw [editsOf] at h
    split at h
    · cases h
    · next next hc =>
      obtain ⟨⟨ds', last'⟩, he, hd⟩ := Option.map_eq_some_iff.1 h
      cases hd
      obtain ⟨texts, hs, hlast, hsteps⟩ := ih he
      have happly : (Document.mk uri none t).apply [change] none = .ok ⟨uri, none, next⟩ := by
        rw [Document.apply_alone rfl, hc]
        rfl
      exact ⟨next :: texts, .cons happly hs, by rw [List.getLast?_cons_cons, hlast],
        steps_cons hsteps⟩

/-- A batch that a document accepts can be replayed to what it gives.  A replay to whatever document
has gone through the texts that the changes leave one at a time and come to the text of the
document; its deltas are those between the successive distinct texts, in order, and splicing them in
order turns the old text into the new one. -/
theorem replay_sound_complete (old : Document) (changes : List Change) :
    (∀ next new, old.apply changes next = .ok new → ∃ ds, replay old changes new = some ds) ∧
    ∀ new ds, replay old changes new = some ds →
      ∃ texts, Stages old.uri old.text changes texts ∧
        (old.text :: texts).getLast? = some new.text ∧
        Delta.Steps ds (distinct (old.text :: texts)) ∧
        (ds.zip (distinct (old.text :: texts)).tail).foldlM
          (fun t step => step.1.splice? step.2 t) old.text = some new.text := by
  refine ⟨fun _ _ h => replay_of_apply h, fun new ds h => ?_⟩
  obtain ⟨texts, hs, hlast, hsteps⟩ := stages_of_editsOf old.uri (replay_eq_some.1 h)
  refine ⟨texts, hs, hlast, hsteps, ?_⟩
  obtain ⟨rest, hrest, hsame⟩ := distinct_cons old.text texts
  rw [hrest] at hsteps ⊢
  rw [List.tail_cons, hsteps.splices, hsame, hlast]

/-- The first change puts a letter in the place of an equal one. -/
def idleChanges : List Change := ⟨some ⟨⟨0, 0⟩, ⟨0, 1⟩⟩, ['a']⟩ :: pairChanges

theorem replay_sound_complete_pair :
    ∃ new ds texts, pairDocument.apply idleChanges (some 2) = .ok new ∧
      replay pairDocument idleChanges new = some ds ∧ ds.length = 2 ∧
      Stages pairDocument.uri pairDocument.text idleChanges texts ∧
      Delta.Steps ds (distinct (pairDocument.text :: texts)) ∧
      (ds.zip (distinct (pairDocument.text :: texts)).tail).foldlM
        (fun t step => step.1.splice? step.2 t) pairDocument.text = some new.text := by
  have happly : pairDocument.apply idleChanges (some 2) =
      .ok ⟨pairDocument.uri, some 2, ['a', '\n', '😀', 'c', 'd']⟩ := by decide
  obtain ⟨hcomplete, hsound⟩ := replay_sound_complete pairDocument idleChanges
  obtain ⟨ds, hd⟩ := hcomplete (some 2) _ happly
  obtain ⟨texts, hs, _, hsteps, hsplice⟩ := hsound _ ds hd
  have hlen : (replay pairDocument idleChanges
      ⟨pairDocument.uri, some 2, ['a', '\n', '😀', 'c', 'd']⟩).map List.length = some 2 := by decide
  rw [hd] at hlen
  exact ⟨_, ds, texts, happly, hd, Option.some.inj hlen, hs, hsteps, hsplice⟩

end TreeStore

end ModuleLens
