import ModuleLens.Outline.Engine
import ModuleLens.Proofs.Delta
import ModuleLens.Proofs.SharedStore

/-! Trees kept over whole runs.  Whatever documents and changes a store is asked about, every tree
it gives is the one that parsing from scratch gives, and it holds for each location the tree of the
document that was kept there last.  The text of a document stands for its fingerprint. -/

namespace ModuleLens

/-- What updates rely on the engine for: a tree made from the tree of an older text and from deltas
that lead to the new text is the tree that parsing the new text gives. -/
def Engine.Incremental (e : Engine) : Prop :=
  ∀ {old new : Text} {tree tree' : SyntaxTree} {ds : List Delta}, e.parse old = some tree →
    Delta.Lead ds old new → e.reparse tree ds new = some tree' → e.parse new = some tree'

namespace TreeStore

theorem editsOf_lead {old new : Text} {changes : List Change} {ds : List Delta}
    (h : editsOf old changes = some (ds, new)) : Delta.Lead ds old new := by
  induction changes generalizing old ds with
  | nil =>
    cases h
    rfl
  | cons change changes ih =>
    rw [editsOf] at h
    split at h
    · cases h
    · obtain ⟨⟨ds', last⟩, he, hd⟩ := Option.map_eq_some_iff.1 h
      cases hd
      exact (ih he).between

theorem replay_eq_some {old new : Document} {changes : List Change} {ds : List Delta} :
    replay old changes new = some ds ↔ editsOf old.text changes = some (ds, new.text) := by
  rw [replay]
  cases editsOf old.text changes with
  | none => simp
  | some result =>
    obtain ⟨deltas, last⟩ := result
    by_cases hl : last = new.text <;> simp [hl]

theorem replay_lead {old new : Document} {changes : List Change} {ds : List Delta}
    (h : replay old changes new = some ds) : Delta.Lead ds old.text new.text :=
  editsOf_lead (replay_eq_some.1 h)

inductive Call where
  | track (document : Document)
  | update (old new : Document) (changes : List Change)
  | alone (document : Document)
  | forget (uri : Uri)

/-- The document that a call asks the tree of. -/
def Call.document? : Call → Option Document
  | track document | update _ document _ | alone document => some document
  | forget _ => none

def serve (e : Engine) (s : TreeStore) : Call → Option (Except EngineError SyntaxTree) × TreeStore
  | .track document =>
    let (result, s) := track e s document
    (some (result.map Update.tree), s)
  | .update old new changes =>
    let (result, s) := update e s old new changes
    (some (result.map Update.tree), s)
  | .alone document => (some (parseAlone e document), s)
  | .forget uri => (none, (forget s uri).2)

def after (e : Engine) (calls : List Call) : TreeStore :=
  calls.foldl (fun s call => (serve e s call).2) {}

/-- The documents that were kept last, by location. -/
abbrev Ledger := Uri → Option Document

namespace Ledger

def set (m : Ledger) (document : Document) : Ledger := fun uri =>
  if uri = document.uri then some document else m uri

def erase (m : Ledger) (uri : Uri) : Ledger := fun u => if u = uri then none else m u

/-- What a call does to the ledger: a document that has a tree is kept in place of an older one, and
a location that is forgotten has none. -/
def note (e : Engine) (m : Ledger) : Call → Ledger
  | .track document => if (e.parse document.text).isSome then m.set document else m
  | .update old new _ => if (e.parse new.text).isSome then (m.erase old.uri).set new else m
  | .alone _ => m
  | .forget uri => m.erase uri

end Ledger

def installed (e : Engine) (calls : List Call) : Ledger :=
  calls.foldl (Ledger.note e) fun _ => none

def entryOf (e : Engine) (document : Document) : Option StoredTree :=
  (e.parse document.text).map fun tree => ⟨document.version, document.text, tree⟩

structure Holds (e : Engine) (s : TreeStore) (m : Ledger) : Prop where
  distinct : Table.Distinct s
  entries : ∀ uri, s.get? uri = (m uri).bind (entryOf e)
  kept : ∀ {uri document}, m uri = some document →
    document.uri = uri ∧ (e.parse document.text).isSome

variable {e : Engine} {s : TreeStore} {m : Ledger}

theorem holds_empty (e : Engine) : Holds e {} fun _ => none :=
  ⟨Table.distinct_empty, fun _ => rfl, fun h => nomatch h⟩

theorem Holds.erase (h : Holds e s m) (uri : Uri) : Holds e (Table.erase s uri) (m.erase uri) := by
  refine ⟨h.distinct.erase uri, fun u => ?_, fun {u d} hu => ?_⟩
  · rw [Table.get?_erase, Ledger.erase]
    split
    · rfl
    · exact h.entries u
  · rw [Ledger.erase] at hu
    split at hu
    · cases hu
    · exact h.kept hu

theorem Holds.keep (h : Holds e s m) {document : Document} {tree : SyntaxTree}
    (ht : e.parse document.text = some tree) :
    Holds e (keep s document tree) (m.set document) := by
  refine ⟨h.distinct.insert _ _, fun u => ?_, fun {u d} hu => ?_⟩
  · rw [TreeStore.keep, Table.get?_insert, Ledger.set]
    split
    · rw [Option.bind_some, entryOf, ht]
      rfl
    · exact h.entries u
  · rw [Ledger.set] at hu
    split at hu
    · next hud =>
      cases hu
      exact ⟨hud.symm, by simp [ht]⟩
    · exact h.kept hu

theorem Holds.supersede (h : Holds e s m) {old new : Document} {tree : SyntaxTree}
    (ht : e.parse new.text = some tree) :
    Holds e (supersede s old new tree) ((m.erase old.uri).set new) := by
  rw [TreeStore.supersede]
  split
  · next hu =>
    -- At one location, keeping the new document takes the old one's place.
    have hset : (m.erase old.uri).set new = m.set new := by
      funext uri
      simp only [Ledger.set, Ledger.erase, hu]
      split <;> rfl
    exact hset ▸ h.keep ht
  · exact (h.erase old.uri).keep ht

/-- Every tree in a store is the tree of its text. -/
def Current (e : Engine) (s : TreeStore) : Prop :=
  ∀ uri stored, s.get? uri = some stored → e.parse stored.text = some stored.tree

theorem Holds.current (h : Holds e s m) : Current e s := by
  intro uri stored hs
  rw [h.entries] at hs
  obtain ⟨document, _, hs⟩ := Option.bind_eq_some_iff.1 hs
  obtain ⟨tree, ht, rfl⟩ := Option.map_eq_some_iff.1 hs
  exact ht

theorem Current.updated (he : e.Incremental) (h : Current e s) {old new : Document}
    {changes : List Change} {tree : SyntaxTree} (hu : updated? e s old new changes = some tree) :
    e.parse new.text = some tree := by
  simp only [updated?, Option.bind_eq_bind, Option.bind_eq_some_iff] at hu
  obtain ⟨cached, hc, ds, hd, ht⟩ := hu
  have hold : e.parse old.text = some cached := by
    rw [treeOf?] at hc
    split at hc
    · next stored hs =>
      split at hc
      · next hsame =>
        cases hc
        exact hsame.2 ▸ h _ stored hs
      · cases hc
    · cases hc
  exact he hold (replay_lead hd) ht

theorem Current.erase (h : Current e s) (uri : Uri) : Current e (Table.erase s uri) := by
  intro u stored hu
  rw [Table.get?_erase] at hu
  split at hu
  · cases hu
  · exact h u stored hu

theorem Current.keep (h : Current e s) {document : Document} {tree : SyntaxTree}
    (ht : e.parse document.text = some tree) : Current e (TreeStore.keep s document tree) := by
  intro u stored hu
  rw [TreeStore.keep, Table.get?_insert] at hu
  split at hu
  · cases hu
    exact ht
  · exact h u stored hu

theorem Current.supersede (h : Current e s) {old new : Document} {tree : SyntaxTree}
    (ht : e.parse new.text = some tree) : Current e (TreeStore.supersede s old new tree) := by
  rw [TreeStore.supersede]
  split
  · exact h.keep ht
  · exact (h.erase old.uri).keep ht

theorem Current.update (he : e.Incremental) (h : Current e s) (old new : Document)
    (changes : List Change) :
    (∃ tree mode, e.parse new.text = some tree ∧
      TreeStore.update e s old new changes =
        (.ok ⟨tree, mode⟩, TreeStore.supersede s old new tree)) ∨
    (e.parse new.text = none ∧
      TreeStore.update e s old new changes = (.error (.noTree new.uri), s)) := by
  rw [TreeStore.update]
  split
  · next tree hu => exact .inl ⟨tree, .incremental, h.updated he hu, rfl⟩
  · rw [parseAlone]
    cases hp : e.parse new.text with
    | some tree => exact .inl ⟨tree, .fallback, rfl, rfl⟩
    | none => exact .inr ⟨rfl, rfl⟩

/-- What one call does: it answers with what parsing from scratch gives, and notes the document if
there is a tree. -/
theorem Holds.serve (he : e.Incremental) (h : Holds e s m) (call : Call) :
    (TreeStore.serve e s call).1 = call.document?.map (parseAlone e) ∧
      Holds e (TreeStore.serve e s call).2 (m.note e call) ∧
      ∀ error, (TreeStore.serve e s call).1 = some (.error error) →
        (TreeStore.serve e s call).2 = s := by
  cases call with
  | track document =>
    simp only [TreeStore.serve, track, Call.document?, Option.map_some, parseAlone, Ledger.note]
    cases hp : e.parse document.text with
    | none => exact ⟨rfl, h, fun _ _ => rfl⟩
    | some tree => exact ⟨rfl, h.keep hp, fun _ hf => nomatch hf⟩
  | update old new changes =>
    simp only [TreeStore.serve, Call.document?, Option.map_some, parseAlone, Ledger.note]
    rcases h.current.update he old new changes with ⟨tree, mode, hp, hu⟩ | ⟨hp, hu⟩
    · rw [hu, hp]
      exact ⟨rfl, h.supersede hp, fun _ hf => nomatch hf⟩
    · rw [hu, hp]
      exact ⟨rfl, h, fun _ _ => rfl⟩
  | alone document => exact ⟨rfl, h, fun _ _ => rfl⟩
  | forget uri => exact ⟨rfl, h.erase uri, fun _ hf => nomatch hf⟩

theorem holds_after (he : e.Incremental) (calls : List Call) :
    Holds e (after e calls) (installed e calls) := by
  have hfrom (s : TreeStore) (m : Ledger) (h : Holds e s m) :
      Holds e (calls.foldl (fun s call => (TreeStore.serve e s call).2) s)
        (calls.foldl (Ledger.note e) m) := by
    induction calls generalizing s m with
    | nil => exact h
    | cons call calls ih => exact ih _ _ (h.serve he call).2.1
  exact hfrom {} _ (holds_empty e)

/-- After any calls, the next call answers with what parsing from scratch gives; the store holds for
each location the version, the text and the tree of the document that was kept there last; and a
call that fails or parses a document alone leaves the store as it is. -/
theorem trees_from_scratch {e : Engine} (he : e.Incremental) (calls : List Call) :
    (∀ call, (TreeStore.serve e (after e calls) call).1 = call.document?.map (parseAlone e)) ∧
    Table.Distinct (after e calls) ∧
    (∀ uri, (after e calls).get? uri = (installed e calls uri).bind (entryOf e)) ∧
    (∀ uri document, installed e calls uri = some document →
      document.uri = uri ∧ (e.parse document.text).isSome) ∧
    (∀ document, (TreeStore.serve e (after e calls) (.alone document)).2 = after e calls) ∧
    ∀ call error, (TreeStore.serve e (after e calls) call).1 = some (.error error) →
      (TreeStore.serve e (after e calls) call).2 = after e calls := by
  have h := holds_after he calls
  exact ⟨fun call => (h.serve he call).1, h.distinct, h.entries, fun _ _ => h.kept, fun _ => rfl,
    fun call => (h.serve he call).2.2⟩

/-- The line grammar, but with no tree for a text of one question mark. -/
def picky : Engine where
  version := 14
  parse t := if t = ['?'] then none else some (Outline.parseStrict t)
  reparse _ _ t := if t = ['?'] then none else some (Outline.parseStrict t)

def firstUri : Uri := ⟨"file:///first.pkl".toList, by decide⟩

def secondUri : Uri := ⟨"file:///second.pkl".toList, by decide⟩

/-- A document is tracked, changed in one place, refused a change, moved to another location and
changed there by a change that does not lead to it. -/
def pickyCalls : List Call :=
  [.track ⟨firstUri, some 1, "x = 1".toList⟩,
    .update ⟨firstUri, some 1, "x = 1".toList⟩ ⟨firstUri, some 2, "x = 2".toList⟩
      [⟨some ⟨⟨0, 4⟩, ⟨0, 5⟩⟩, "2".toList⟩],
    .update ⟨firstUri, some 2, "x = 2".toList⟩ ⟨firstUri, some 3, "?".toList⟩
      [⟨none, "?".toList⟩],
    .update ⟨firstUri, some 2, "x = 2".toList⟩ ⟨secondUri, some 1, "x = 3".toList⟩
      [⟨none, "x = 3".toList⟩],
    .update ⟨secondUri, some 1, "x = 3".toList⟩ ⟨secondUri, some 2, "y = 4".toList⟩
      [⟨none, "z".toList⟩]]

theorem trees_from_scratch_picky : picky.Incremental ∧
    (after picky pickyCalls).get? firstUri = none ∧
    (after picky pickyCalls).get? secondUri =
      some ⟨some 2, "y = 4".toList, Outline.parseStrict "y = 4".toList⟩ ∧
    (TreeStore.serve picky (after picky pickyCalls) (.alone ⟨firstUri, none, "?".toList⟩)).1 =
      some (.error (.noTree firstUri)) := by
  have he : picky.Incremental := fun _ _ h => h
  obtain ⟨hreply, _, hget, _⟩ := trees_from_scratch he pickyCalls
  refine ⟨he, ?_, ?_, ?_⟩
  · rw [hget]
    rfl
  · rw [hget]
    rfl
  · rw [hreply]
    rfl

end TreeStore

end ModuleLens
