import Mathlib.Logic.Function.Basic
import ModuleLens.Proofs.Linker.Progress
import ModuleLens.Proofs.Session.Snapshots

/-! Editors that share a session.  Every document has an editor of its own, which makes its calls
one after the other; calls of different editors go on side by side, and workers in between.  A call
is a row of steps, each of which reads or writes one thing that is shared: the open snapshots, the
stored trees or the linker.  A call that is done leaves at its location the snapshot, its tree and a
module that was drafted from them, and leaves the other locations as they are. -/

namespace ModuleLens

open Node

namespace Session

/-- How a call ends for the editor that made it. -/
inductive Verdict where
  | done
  | failed (error : SessionError)
  | closed (wasOpen : Bool)
  /-- The call was thrown out or never came back. -/
  | lost
deriving DecidableEq

def Verdict.ofResult : Except SessionError (Fate Node) → Verdict
  | .ok (.done _) => done
  | .ok _ => lost
  | .error e => failed e

def verdict (env : SessionEnv) (s : Session) : Call → Verdict
  | .openDocument uri version text => .ofResult (s.openDocument env uri version text).1
  | .change uri version changes => .ofResult (s.change env uri version changes).1
  | .close uri => .closed (s.close uri).1

def verdicts (env : SessionEnv) : Session → List Call → List Verdict
  | _, [] => []
  | s, call :: calls => s.verdict env call :: verdicts env (s.serve env call).2 calls

inductive Stage where
  | begun
  /-- A change has read the open snapshot and applied its edits. -/
  | edited (old new : Document)
  /-- There is a tree that is not stored yet, for a change with the snapshot it started from. -/
  | parsed (old : Option Document) (document : Document) (tree : SyntaxTree)
  | kept (document : Document) (tree : SyntaxTree)
  | evicted (document : Document) (tree : SyntaxTree)
  | building (caller : Caller)
  | retired
  | removed (wasOpen : Bool)
  | returned (verdict : Verdict)

/-- One step of a call, as long as no build is thrown out. -/
inductive Turn (env : SessionEnv) : Call → Session → Stage → Session → Stage → Prop where
  | parse {uri : Uri} {version : Int} {text : Text} {tree : SyntaxTree} (s : Session)
      (h : TreeStore.parseAlone env.engine ⟨uri, some version, text⟩ = .ok tree) :
      Turn env (.openDocument uri version text) s .begun s
        (.parsed none ⟨uri, some version, text⟩ tree)
  | unparsed {uri : Uri} {version : Int} {text : Text} {error : EngineError} (s : Session)
      (h : TreeStore.parseAlone env.engine ⟨uri, some version, text⟩ = .error error) :
      Turn env (.openDocument uri version text) s .begun s (.returned (.failed (.engine error)))
  | unknown {s : Session} {uri : Uri} (version : Int) (changes : List Change)
      (h : s.document? uri = none) :
      Turn env (.change uri version changes) s .begun s (.returned (.failed (.unknownDocument uri)))
  | refuse {s : Session} {uri : Uri} {version : Int} {changes : List Change} {old : Document}
      {error : EditError} (h : s.document? uri = some old)
      (ha : old.apply changes (some version) = .error error) :
      Turn env (.change uri version changes) s .begun s (.returned (.failed (.edit error)))
  | edit {s : Session} {uri : Uri} {version : Int} {changes : List Change} {old new : Document}
      (h : s.document? uri = some old) (ha : old.apply changes (some version) = .ok new) :
      Turn env (.change uri version changes) s .begun s (.edited old new)
  /-- Reads the stored tree and parses. -/
  | reparse {s : Session} {uri : Uri} {version : Int} {changes : List Change}
      {old new : Document} {parsed : Update}
      (h : (TreeStore.update env.engine s.trees old new changes).1 = .ok parsed) :
      Turn env (.change uri version changes) s (.edited old new) s
        (.parsed (some old) new parsed.tree)
  | unreparsed {s : Session} {uri : Uri} {version : Int} {changes : List Change}
      {old new : Document} {error : EngineError}
      (h : (TreeStore.update env.engine s.trees old new changes).1 = .error error) :
      Turn env (.change uri version changes) s (.edited old new) s
        (.returned (.failed (.engine error)))
  | keep (call : Call) (s : Session) (document : Document) (tree : SyntaxTree) :
      Turn env call s (.parsed none document tree)
        { s with trees := TreeStore.keep s.trees document tree } (.kept document tree)
  | supersede (call : Call) (s : Session) (old document : Document) (tree : SyntaxTree) :
      Turn env call s (.parsed (some old) document tree)
        { s with trees := TreeStore.supersede s.trees old document tree } (.kept document tree)
  | evict (call : Call) (s : Session) (document : Document) (tree : SyntaxTree) :
      Turn env call s (.kept document tree) { s with linker := s.linker.forget document.uri }
        (.evicted document tree)
  | draft (call : Call) (s : Session) (document : Document) (tree : SyntaxTree) :
      Turn env call s (.evicted document tree)
        { s with linker := { s.linker with drafts := s.linker.drafts + 1 } }
        (.building (Linker.entryOf s.linker.drafts tree document))
  /-- One step of the build, over the snapshots that are open at the moment. -/
  | build {s : Session} {deed : Deed} {caller caller' : Caller} {linker : Linker} (call : Call)
      (h : Caller.Step (s.importEnv env) deed caller s.linker caller' linker)
      (hd : deed ≠ .unwound) :
      Turn env call s (.building caller) { s with linker } (.building caller')
  | publish (call : Call) (s : Session) (tree : SyntaxTree) (document : Document) (module : Node) :
      Turn env call s (.building (.built tree document module))
        { s with opened := s.opened.insert document.uri ⟨document, module⟩ } (.returned .done)
  | retire (uri : Uri) (s : Session) :
      Turn env (.close uri) s .begun { s with trees := (TreeStore.forget s.trees uri).2 } .retired
  | remove (uri : Uri) (s : Session) :
      Turn env (.close uri) s .retired { s with opened := s.opened.erase uri }
        (.removed (s.opened.contains uri))
  | forget (uri : Uri) (s : Session) (wasOpen : Bool) :
      Turn env (.close uri) s (.removed wasOpen) { s with linker := s.linker.forget uri }
        (.returned (.closed wasOpen))

end Session

open Session

/-- The thread that makes the calls of one document: the calls that are left, the one that is going
on first, and those that have come back with how they ended. -/
structure Editor where
  calls : List Call
  stage : Stage := .begun
  made : List Call := []
  verdicts : List Verdict := []

structure SharedSession where
  session : Session
  /-- The jobs that workers are at. -/
  active : List Job := []
  editors : Uri → Editor

namespace SharedSession

/-- A session before anyone has made a call of its script. -/
def ofScripts (session : Session) (scripts : Uri → List Call) : SharedSession where
  session
  editors uri := { calls := scripts uri }

inductive Step (env : SessionEnv) : SharedSession → SharedSession → Prop where
  | turn {s : Session} {stage : Stage} {call : Call} {calls : List Call} (t : SharedSession)
      (uri : Uri) (hc : (t.editors uri).calls = call :: calls)
      (h : Turn env call t.session (t.editors uri).stage s stage) :
      Step env t
        { t with
          session := s
          editors := Function.update t.editors uri { t.editors uri with stage } }
  /-- A call comes back. -/
  | back {verdict : Verdict} {call : Call} {calls : List Call} (t : SharedSession) (uri : Uri)
      (hc : (t.editors uri).calls = call :: calls)
      (hv : (t.editors uri).stage = .returned verdict) :
      Step env t
        { t with
          editors := Function.update t.editors uri
            { calls
              made := (t.editors uri).made ++ [call]
              verdicts := (t.editors uri).verdicts ++ [verdict] } }
  | work {deed : Deed} {linker : Linker} {active : List Job} (t : SharedSession)
      (h : Crew.Step (t.session.importEnv env) deed ⟨t.session.linker, t.active, []⟩
        ⟨linker, active, []⟩)
      (hd : deed ≠ .unwound) :
      Step env t { t with session := { t.session with linker }, active }

abbrev Reachable (env : SessionEnv) := Relation.ReflTransGen (Step env)

end SharedSession

namespace Session

/-- What a session keeps at a location. -/
structure Place where
  tree : Option StoredTree
  tracked : Option Tracked

namespace Place

def document? (p : Place) : Option Document := p.tracked.map Tracked.document

/-- The module of a place is a draft of its tree and its snapshot, linked to some answers. -/
def Drafted (p : Place) : Prop :=
  ∀ tracked, p.tracked = some tracked → ∃ stored number answers, p.tree = some stored ∧
    tracked.module = (draftModule number stored.tree tracked.document 0).link answers

def published (document : Document) (tree : SyntaxTree) (module : Node) : Place :=
  ⟨some ⟨document.version, document.text, tree⟩, some ⟨document, module⟩⟩

theorem drafted_empty {tree : Option StoredTree} : Drafted ⟨tree, none⟩ := by
  intro tracked ht
  cases ht

theorem drafted_published (document : Document) (tree : SyntaxTree) (number : Nat)
    (answers : Answers) :
    (published document tree ((draftModule number tree document 0).link answers)).Drafted := by
  intro tracked ht
  cases ht
  exact ⟨_, number, answers, rfl, rfl⟩

end Place

def place (s : Session) (uri : Uri) : Place := ⟨s.trees.get? uri, s.opened.get? uri⟩

variable {env : SessionEnv} {s : Session}

theorem place_keep (s : Session) (document : Document) (tree : SyntaxTree) (u : Uri) :
    place { s with trees := TreeStore.keep s.trees document tree } u =
      if u = document.uri then
        ⟨some ⟨document.version, document.text, tree⟩, s.opened.get? u⟩ else s.place u := by
  rw [place, TreeStore.keep, Table.get?_insert]
  split
  · rfl
  · rfl

theorem place_insert (s : Session) (uri : Uri) (tracked : Tracked) (u : Uri) :
    place { s with opened := s.opened.insert uri tracked } u =
      if u = uri then ⟨s.trees.get? u, some tracked⟩ else s.place u := by
  rw [place, Table.get?_insert]
  split
  · rfl
  · rfl

theorem place_forget (s : Session) (uri u : Uri) :
    place { s with trees := (TreeStore.forget s.trees uri).2 } u =
      if u = uri then ⟨none, s.opened.get? u⟩ else s.place u := by
  rw [place, TreeStore.forget, Table.get?_erase]
  split
  · rfl
  · rfl

theorem place_erase (s : Session) (uri u : Uri) :
    place { s with opened := s.opened.erase uri } u =
      if u = uri then ⟨s.trees.get? u, none⟩ else s.place u := by
  rw [place, Table.get?_erase]
  split
  · rfl
  · rfl

theorem verdict_of_serve {call : Call} {result : Except SessionError (Fate Node)}
    (h : (s.serve env call).1 = some result) : s.verdict env call = .ofResult result := by
  cases call with
  | openDocument uri version text =>
    cases h
    rfl
  | change uri version changes =>
    cases h
    rfl
  | close uri => cases h

/-- A call that has a basis is done: it publishes the snapshot, its tree and a module that was
drafted from them. -/
theorem serve_done (hs : ∀ document, (env.source document).comesBack) {call : Call}
    {tree : SyntaxTree} {document : Document} (he : s.basis? env call = some (tree, document)) :
    ∃ number answers, s.verdict env call = .done ∧
      ∀ u, (s.serve env call).2.place u =
        if u = document.uri then
          .published document tree ((draftModule number tree document 0).link answers)
        else s.place u := by
  have hserve := serve_kept he
  have hback := rebuild_returns hs { s with trees := TreeStore.keep s.trees document tree } document
    tree
  cases hf : (rebuild env { s with trees := TreeStore.keep s.trees document tree } document
      tree).1 with
  | unwound =>
    rw [hf] at hback
    cases hback
  | stuck =>
    rw [hf] at hback
    cases hback
  | done module =>
    obtain ⟨linker, number, answers, hnext, rfl⟩ := rebuild_done hf
    rw [hf, hnext] at hserve
    refine ⟨number, answers, verdict_of_serve (congrArg Prod.fst hserve), fun u => ?_⟩
    rw [hserve]
    refine (place_insert _ _ _ u).trans ?_
    split
    · next hu =>
      dsimp only
      rw [TreeStore.keep, Table.get?_insert, if_pos hu, Place.published]
    · next hu => exact (place_keep s document tree u).trans (if_neg hu)

theorem place_close (s : Session) (uri u : Uri) :
    (s.close uri).2.place u = if u = uri then ⟨none, none⟩ else s.place u := by
  change Place.mk ((s.trees.erase uri).get? u) ((s.opened.erase uri).get? u) = _
  rw [Table.get?_erase, Table.get?_erase]
  split
  · rfl
  · rfl

/-- A session in which snapshots stand at their own locations, with modules drafted from the trees
that are stored there. -/
structure InPlace (s : Session) : Prop where
  named : ∀ uri document, s.document? uri = some document → document.uri = uri
  drafted : ∀ uri, (s.place uri).Drafted

theorem start_inPlace (h : Session.start env = .ok s) : s.InPlace := by
  refine ⟨(start_sound h).1.opened, fun uri tracked ht => ?_⟩
  have hnone := (start_sound h).2.2 uri
  rw [document?, show s.opened.get? uri = some tracked from ht] at hnone
  cases hnone

theorem document?_eq (s : Session) (uri : Uri) :
    s.document? uri = (s.place uri).document? := rfl

theorem InPlace.serve (hs : ∀ document, (env.source document).comesBack) (h : s.InPlace)
    (call : Call) : (s.serve env call).2.InPlace := by
  cases he : s.basis? env call with
  | some entry =>
    obtain ⟨tree, document⟩ := entry
    obtain ⟨number, answers, _, hplace⟩ := serve_done hs he
    refine ⟨fun uri d hd => ?_, fun uri => ?_⟩
    · rw [document?_eq, hplace] at hd
      split at hd
      · next hu =>
        cases hd
        exact hu.symm
      · exact h.named uri d hd
    · rw [hplace]
      split
      · exact Place.drafted_published document tree number answers
      · exact h.drafted uri
  | none =>
    by_cases hc : ∃ uri, call = .close uri
    · obtain ⟨closed, rfl⟩ := hc
      have hplace (u : Uri) := place_close s closed u
      refine ⟨fun uri d hd => ?_, fun uri => ?_⟩
      · rw [document?_eq, Session.serve, hplace] at hd
        split at hd
        · cases hd
        · exact h.named uri d hd
      · rw [Session.serve, hplace]
        split
        · exact Place.drafted_empty
        · exact h.drafted uri
    · obtain ⟨e, hserve⟩ := serve_no_basis he fun uri hu => hc ⟨uri, hu⟩
      rw [hserve]
      exact h

theorem InPlace.after (hs : ∀ document, (env.source document).comesBack) (h : s.InPlace)
    (calls : List Call) : (s.after env calls).InPlace := by
  induction calls generalizing s with
  | nil => exact h
  | cons call calls ih => exact ih (h.serve hs call)

end Session

end ModuleLens
