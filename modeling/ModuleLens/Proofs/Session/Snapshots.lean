import ModuleLens.Proofs.Linker.Returns
import ModuleLens.Proofs.Session.Calls
import ModuleLens.Proofs.TreeStore.Replay

/-! A session as a map of documents.  Over any calls that come back, the open documents are what
folding the calls over a map from locations to versions and texts gives; each has its tree in the
store and a module that was built from it.  A batch that was accepted can be replayed, so every such
change is parsed by its edits. -/

namespace ModuleLens

/-- An engine that has a tree for every text, from scratch and from an older tree. -/
structure Engine.Total (e : Engine) : Prop where
  parses : ∀ t, (e.parse t).isSome
  reparses : ∀ tree ds t, (e.reparse tree ds t).isSome

namespace Session

open Node

variable {env : SessionEnv} {s : Session}

def cameBack : Option (Except SessionError (Fate Node)) → Bool
  | some (.ok .unwound) | some (.ok .stuck) => false
  | _ => true

def Returned (env : SessionEnv) (s : Session) : List Call → Prop
  | [] => True
  | call :: calls => cameBack (s.serve env call).1 ∧ Returned env (s.serve env call).2 calls

abbrev Notes := Uri → Option (Int × Text)

namespace Notes

def set (m : Notes) (uri : Uri) (version : Int) (text : Text) : Notes := fun u =>
  if u = uri then some (version, text) else m u

def erase (m : Notes) (uri : Uri) : Notes := fun u => if u = uri then none else m u

def document? (m : Notes) (uri : Uri) : Option Document :=
  (m uri).map fun note => ⟨uri, some note.1, note.2⟩

/-- What a call does to the notes: opening sets a note, a change that is accepted applies its batch,
and closing takes the note away. -/
def take (m : Notes) : Call → Notes
  | .openDocument uri version text => m.set uri version text
  | .change uri version changes =>
    match m.document? uri with
    | none => m
    | some old =>
      match old.apply changes (some version) with
      | .ok new => m.set uri version new.text
      | .error _ => m
  | .close uri => m.erase uri

end Notes

def folded (calls : List Call) : Notes := calls.foldl Notes.take fun _ => none

/-- A session that keeps what its notes say: the documents, their trees and their modules. -/
structure Tracks (s : Session) (m : Notes) : Prop where
  documents : ∀ uri, s.document? uri = m.document? uri
  trees : ∀ uri, (s.trees.get? uri).map (fun stored => (stored.version, stored.text)) =
    (m uri).map fun note => (some note.1, note.2)
  modules : ∀ {uri tracked}, s.opened.get? uri = some tracked →
    ∃ stored number answers, s.trees.get? uri = some stored ∧
      tracked.module = (draftModule number stored.tree tracked.document 0).link answers

theorem start_tracks (h : Session.start env = .ok s) : s.Tracks fun _ => none := by
  rw [Session.start] at h
  split at h
  · cases h
    refine ⟨fun _ => rfl, fun _ => rfl, fun hu => ?_⟩
    cases hu
  · cases h

theorem rebuild_done {document : Document} {tree : SyntaxTree} {module : Node}
    (h : (s.rebuild env document tree).1 = .done module) :
    ∃ linker number answers, (s.rebuild env document tree).2 =
        { s with linker, opened := s.opened.insert document.uri ⟨document, module⟩ } ∧
      module = (draftModule number tree document 0).link answers := by
  cases hb : (s.linker.forget document.uri).buildEntryTree (s.importEnv env) tree document with
  | mk fate linker =>
    rw [rebuild, hb] at h
    cases fate with
    | done built =>
      cases h
      obtain ⟨answers, ha⟩ := Linker.buildEntryTree_done (congrArg Prod.fst hb)
      refine ⟨linker, _, answers, ?_, ha⟩
      rw [rebuild, hb]
    | unwound => cases h
    | stuck => cases h

/-- A snapshot whose tree is stored and whose module is built becomes the one that is noted. -/
theorem Tracks.publish {m : Notes} (h : s.Tracks m) {uri : Uri} {version : Int} {text : Text}
    {tree : SyntaxTree} {s' : Session} {fate : Fate Node}
    (hr : rebuild env { s with trees := TreeStore.keep s.trees ⟨uri, some version, text⟩ tree }
      ⟨uri, some version, text⟩ tree = (fate, s'))
    (hc : cameBack (some (.ok fate))) : s'.Tracks (m.set uri version text) := by
  cases fate with
  | unwound => cases hc
  | stuck => cases hc
  | done module =>
    obtain ⟨linker, number, answers, hs, hm⟩ := rebuild_done (congrArg Prod.fst hr)
    rw [hr] at hs
    cases hs
    refine ⟨fun u => ?_, fun u => ?_, fun {u tracked} hu => ?_⟩
    · rw [Notes.document?, Notes.set]
      refine (document?_insert _ uri u ⟨⟨uri, some version, text⟩, module⟩).trans ?_
      split
      · next huu => rw [huu]; rfl
      · exact h.documents u
    · dsimp only
      rw [TreeStore.keep, Table.get?_insert, Notes.set]
      split
      · rfl
      · exact h.trees u
    · dsimp only at hu ⊢
      rw [TreeStore.keep, Table.get?_insert]
      rw [Table.get?_insert] at hu
      split at hu
      · next huu =>
        cases hu
        rw [if_pos huu]
        exact ⟨_, number, answers, rfl, hm⟩
      · next huu =>
        rw [if_neg huu]
        exact h.modules hu

/-- The tree of the old snapshot is stored and an accepted batch can be replayed, so the change is
parsed by its edits. -/
theorem Tracks.update {m : Notes} (he : env.engine.Total) (h : s.Tracks m) {uri : Uri}
    {old new : Document} {changes : List Change} {version : Option Int}
    (ho : s.document? uri = some old) (ha : old.apply changes version = .ok new) :
    ∃ tree, TreeStore.update env.engine s.trees old new changes =
      (.ok ⟨tree, .incremental⟩, TreeStore.keep s.trees new tree) := by
  rw [h.documents, Notes.document?] at ho
  obtain ⟨note, hn, rfl⟩ := Option.map_eq_some_iff.1 ho
  have htrees := h.trees uri
  rw [hn] at htrees
  obtain ⟨stored, hs, hsame⟩ := Option.map_eq_some_iff.1 htrees
  obtain ⟨hversion, htext⟩ := Prod.mk.inj hsame
  have htree : TreeStore.treeOf? s.trees ⟨uri, some note.1, note.2⟩ = some stored.tree := by
    rw [TreeStore.treeOf?, hs]
    exact if_pos ⟨hversion, htext⟩
  obtain ⟨ds, hd⟩ := TreeStore.replay_of_apply ha
  obtain ⟨tree, ht⟩ := Option.isSome_iff_exists.1 (he.reparses stored.tree ds new.text)
  have hup : TreeStore.updated? env.engine s.trees ⟨uri, some note.1, note.2⟩ new changes =
      some tree := by
    simp only [TreeStore.updated?, htree, hd, Option.bind_eq_bind, Option.bind_some, ht]
  have huri : new.uri = uri := (Document.apply_eq_ok ha).1
  refine ⟨tree, ?_⟩
  simp only [TreeStore.update, hup, TreeStore.supersede, huri, if_true]

theorem Tracks.openDocument {m : Notes} (he : env.engine.Total) (h : s.Tracks m) (uri : Uri)
    (version : Int) (text : Text) (hc : cameBack (some (s.openDocument env uri version text).1)) :
    (s.openDocument env uri version text).2.Tracks (m.set uri version text) := by
  obtain ⟨tree, ht⟩ := Option.isSome_iff_exists.1 (he.parses text)
  have htrack : TreeStore.track env.engine s.trees ⟨uri, some version, text⟩ =
      (.ok ⟨tree, .full⟩, TreeStore.keep s.trees ⟨uri, some version, text⟩ tree) := by
    simp only [TreeStore.track, TreeStore.parseAlone, ht]
  simp only [Session.openDocument, htrack] at hc ⊢
  exact h.publish rfl hc

theorem Tracks.change {m : Notes} (he : env.engine.Total) (h : s.Tracks m) (uri : Uri)
    (version : Int) (changes : List Change)
    (hc : cameBack (some (s.change env uri version changes).1)) :
    (s.change env uri version changes).2.Tracks (m.take (.change uri version changes)) := by
  have hdoc := h.documents uri
  simp only [Notes.take, Session.change] at hc ⊢
  rw [← hdoc]
  cases ho : s.document? uri with
  | none => exact h
  | some old =>
    cases ha : old.apply changes (some version) with
    | error e =>
      simp only [ha]
      exact h
    | ok new =>
      obtain ⟨tree, hu⟩ := h.update he ho ha
      have hold : old.uri = uri := by
        rw [hdoc] at ho
        obtain ⟨_, _, rfl⟩ := Option.map_eq_some_iff.1 ho
        rfl
      obtain ⟨huri, hversion, _⟩ := Document.apply_eq_ok ha
      obtain ⟨newUri, newVersion, text⟩ := new
      simp only at huri hversion
      subst hversion huri hold
      simp only [ho, ha, hu] at hc ⊢
      exact h.publish rfl hc

theorem Tracks.close {m : Notes} (h : s.Tracks m) (uri : Uri) :
    (s.close uri).2.Tracks (m.erase uri) := by
  have hget (u : Uri) : (s.opened.erase uri).get? u = if u = uri then none else s.opened.get? u :=
    Table.get?_erase s.opened uri u
  refine ⟨fun u => ?_, fun u => ?_, fun {u tracked} hu => ?_⟩
  · change Option.map Tracked.document ((s.opened.erase uri).get? u) = _
    rw [hget, Notes.document?, Notes.erase]
    split
    · rfl
    · exact h.documents u
  · change Option.map _ ((s.trees.erase uri).get? u) = _
    rw [Table.get?_erase, Notes.erase]
    split
    · rfl
    · exact h.trees u
  · change (s.opened.erase uri).get? u = some tracked at hu
    change ∃ stored number answers, (s.trees.erase uri).get? u = some stored ∧ _
    rw [hget] at hu
    split at hu
    · cases hu
    · next huu =>
      rw [Table.get?_erase, if_neg huu]
      exact h.modules hu

theorem Tracks.serve {m : Notes} (he : env.engine.Total) (h : s.Tracks m) (call : Call)
    (hc : cameBack (s.serve env call).1) : (s.serve env call).2.Tracks (m.take call) := by
  cases call with
  | openDocument uri version text => exact h.openDocument he uri version text hc
  | change uri version changes => exact h.change he uri version changes hc
  | close uri => exact h.close uri

theorem Tracks.after {m : Notes} (he : env.engine.Total) (h : s.Tracks m) {calls : List Call}
    (hc : s.Returned env calls) : (s.after env calls).Tracks (calls.foldl Notes.take m) := by
  induction calls generalizing s m with
  | nil => exact h
  | cons call calls ih => exact ih (h.serve he call hc.1) hc.2

theorem rebuild_returns (hs : ∀ document, (env.source document).comesBack) (s : Session)
    (document : Document) (tree : SyntaxTree) :
    cameBack (some (.ok (s.rebuild env document tree).1)) := by
  have hsource : ∀ document, ((s.importEnv env).source document).comesBack := hs
  obtain ⟨module, hm⟩ := Linker.buildEntryTree_returns hsource (s.linker.forget document.uri) tree
    document
  cases hb : (s.linker.forget document.uri).buildEntryTree (s.importEnv env) tree document with
  | mk fate linker =>
    rw [hb] at hm
    cases hm
    rw [rebuild, hb]
    rfl

theorem serve_returns (hs : ∀ document, (env.source document).comesBack) (s : Session)
    (call : Call) : cameBack (s.serve env call).1 := by
  cases he : s.basis? env call with
  | some entry =>
    obtain ⟨tree, document⟩ := entry
    obtain ⟨trees, hserve⟩ := serve_basis he
    rw [hserve]
    exact rebuild_returns hs { s with trees } document tree
  | none =>
    cases call with
    | close uri => rfl
    | openDocument uri version text =>
      obtain ⟨e, hserve⟩ := serve_no_basis he nofun
      rw [hserve]
      rfl
    | change uri version changes =>
      obtain ⟨e, hserve⟩ := serve_no_basis he nofun
      rw [hserve]
      rfl

theorem returned_of_source (hs : ∀ document, (env.source document).comesBack) (s : Session)
    (calls : List Call) : s.Returned env calls := by
  induction calls generalizing s with
  | nil => trivial
  | cons call calls ih => exact ⟨serve_returns hs s call, ih _⟩

/-- The location at which a call begins or ends a document. -/
def Call.resets? : Call → Option Uri
  | openDocument uri _ _ | close uri => some uri
  | change .. => none

namespace Notes

theorem take_later {m : Notes} {uri : Uri} {version : Int} {text : Text}
    (hm : m uri = some (version, text)) {call : Call} (hc : call.resets? ≠ some uri) :
    ∃ version' text', m.take call uri = some (version', text') ∧ version ≤ version' := by
  have hother (u : Uri) (hu : some u ≠ some uri) : uri ≠ u := fun h => hu (congrArg some h.symm)
  cases call with
  | openDocument u v t =>
    refine ⟨version, text, ?_, Int.le_refl _⟩
    rw [take, set, if_neg (hother u hc), hm]
  | close u =>
    refine ⟨version, text, ?_, Int.le_refl _⟩
    rw [take, erase, if_neg (hother u hc), hm]
  | change u v changes =>
    by_cases hu : u = uri
    · subst hu
      have hdoc : m.document? u = some ⟨u, some version, text⟩ := by simp [document?, hm]
      cases ha : Document.apply ⟨u, some version, text⟩ changes (some v) with
      | error e => exact ⟨version, text, by simp [take, hdoc, ha, hm], Int.le_refl _⟩
      | ok new =>
        refine ⟨v, new.text, by simp [take, hdoc, ha, set], ?_⟩
        have hstale := (Document.apply_eq_ok ha).2.2.1
        simp only [Document.isStale] at hstale
        split at hstale
        · cases hstale
        · omega
    · refine ⟨version, text, ?_, Int.le_refl _⟩
      rw [take]
      cases m.document? u with
      | none => exact hm
      | some old =>
        dsimp only
        cases old.apply changes (some v) with
        | error e => exact hm
        | ok new => exact (if_neg (Ne.symm hu)).trans hm

theorem foldl_later {calls : List Call} {m : Notes} {uri : Uri} {version : Int} {text : Text}
    (hm : m uri = some (version, text)) (hc : ∀ call ∈ calls, call.resets? ≠ some uri) :
    ∃ version' text', calls.foldl take m uri = some (version', text') ∧ version ≤ version' := by
  induction calls generalizing m version text with
  | nil => exact ⟨version, text, hm, Int.le_refl _⟩
  | cons call calls ih =>
    obtain ⟨v, t, ht, hle⟩ := take_later hm (hc call List.mem_cons_self)
    obtain ⟨v', t', ht', hle'⟩ := ih ht fun c hm => hc c (List.mem_cons_of_mem call hm)
    exact ⟨v', t', ht', Int.le_trans hle hle'⟩

end Notes

theorem trees_rebuild (env : SessionEnv) (s : Session) (document : Document) (tree : SyntaxTree) :
    (s.rebuild env document tree).2.trees = s.trees := by
  rw [rebuild]
  split
  next fate linker _ => cases fate <;> rfl

theorem trees_current_serve (hi : env.engine.Incremental) (h : TreeStore.Current env.engine s.trees)
    (call : Call) : TreeStore.Current env.engine (s.serve env call).2.trees := by
  cases call with
  | openDocument uri version text =>
    simp only [serve, openDocument, TreeStore.track, TreeStore.parseAlone]
    cases hp : env.engine.parse text with
    | none => exact h
    | some tree =>
      simp only [trees_rebuild]
      exact h.keep hp
  | change uri version changes =>
    simp only [serve, change]
    cases s.document? uri with
    | none => exact h
    | some old =>
      dsimp only
      cases old.apply changes (some version) with
      | error e => exact h
      | ok new =>
        dsimp only
        rcases h.update hi old new changes with ⟨tree, mode, hp, hu⟩ | ⟨_, hu⟩
        · simp only [hu, trees_rebuild]
          exact h.supersede hp
        · simp only [hu]
          exact h
  | close uri => exact h.erase uri

theorem trees_current_after (hi : env.engine.Incremental) (h : TreeStore.Current env.engine s.trees)
    (calls : List Call) : TreeStore.Current env.engine (s.after env calls).trees := by
  induction calls generalizing s with
  | nil => exact h
  | cons call calls ih => exact ih (trees_current_serve hi h call)

theorem Tracks.keys {m : Notes} (h : s.Tracks m) (uri : Uri) :
    uri ∈ s.trees.keys ↔ (s.document? uri).isSome := by
  have htree := congrArg Option.isSome (h.trees uri)
  rw [Option.isSome_map, Option.isSome_map] at htree
  rw [Table.mem_keys, htree, h.documents, Notes.document?, Option.isSome_map]

theorem Tracks.snapshot {m : Notes} (h : s.Tracks m) {uri : Uri} {document : Document}
    (hd : s.document? uri = some document) :
    ∃ stored module number answers, s.trees.get? uri = some stored ∧
      stored.version = document.version ∧ stored.text = document.text ∧
      s.module? uri = some module ∧ module.depth = 0 ∧ module.document = document ∧
      module = (draftModule number stored.tree document 0).link answers := by
  have hnote := hd
  rw [h.documents] at hnote
  obtain ⟨note, hn, rfl⟩ := Option.map_eq_some_iff.1 hnote
  have htrees := h.trees uri
  rw [hn] at htrees
  obtain ⟨stored, hs, hsame⟩ := Option.map_eq_some_iff.1 htrees
  obtain ⟨hversion, htext⟩ := Prod.mk.inj hsame
  obtain ⟨tracked, ht, htd⟩ := Option.map_eq_some_iff.1 hd
  obtain ⟨stored', number, answers, hs', hm⟩ := h.modules ht
  have hstored : stored' = stored := Option.some.inj (hs'.symm.trans hs)
  subst hstored
  rw [htd] at hm
  have hroot := draftModule_nodes number stored'.tree ⟨uri, some note.1, note.2⟩ 0 _
    List.mem_cons_self
  refine ⟨stored', tracked.module, number, answers, hs, hversion, htext, ?_, ?_, ?_, hm⟩
  · rw [module?, ht]
    rfl
  · rw [hm, Node.depth, info_link]
    exact hroot.2.2.1
  · rw [hm, Node.document, info_link]
    exact hroot.2.1

end Session

open Session

/-- A session refines a map of documents.  Calls come back if the module source does; and after
calls that have come back, the open documents are the folded notes, the tree store has their
locations for keys, each with the version and the text of the snapshot, each module is a draft of
that tree and snapshot, versions do not decrease before the next opening or closing, and a change
that is accepted is parsed by its edits. -/
theorem session_refines_notes {env : SessionEnv} {s : Session} (hs : Session.start env = .ok s)
    (he : env.engine.Total) :
    ((∀ document, (env.source document).comesBack) → ∀ calls, s.Returned env calls) ∧
    ∀ calls, s.Returned env calls →
      (∀ uri, (s.after env calls).document? uri = (folded calls).document? uri) ∧
      (∀ uri, uri ∈ (s.after env calls).trees.keys ↔
        ((s.after env calls).document? uri).isSome) ∧
      (∀ uri document, (s.after env calls).document? uri = some document →
        ∃ stored module number answers, (s.after env calls).trees.get? uri = some stored ∧
          stored.version = document.version ∧ stored.text = document.text ∧
          (env.engine.Incremental → env.engine.parse document.text = some stored.tree) ∧
          (s.after env calls).module? uri = some module ∧ module.depth = 0 ∧
          module.document = document ∧
          module = (draftModule number stored.tree document 0).link answers) ∧
      (∀ more uri document, s.Returned env (calls ++ more) →
        (s.after env calls).document? uri = some document →
        (∀ call ∈ more, call.resets? ≠ some uri) →
        ∃ later version version', (s.after env (calls ++ more)).document? uri = some later ∧
          document.version = some version ∧ later.version = some version' ∧
          version ≤ version') ∧
      ∀ uri version changes old new, (s.after env calls).document? uri = some old →
        old.apply changes (some version) = .ok new →
        ∃ tree, (TreeStore.update env.engine (s.after env calls).trees old new changes).1 =
          .ok ⟨tree, .incremental⟩ := by
  refine ⟨fun hsource calls => returned_of_source hsource s calls, fun calls hc => ?_⟩
  have hbegin := start_tracks hs
  have htracks : (s.after env calls).Tracks (folded calls) := hbegin.after he hc
  refine ⟨htracks.documents, htracks.keys, fun uri document hd => ?_,
    fun more uri document hmore hd hkeep => ?_, fun uri version changes old new ho ha => ?_⟩
  · obtain ⟨stored, module, number, answers, hget, hversion, htext, hmodule⟩ := htracks.snapshot hd
    refine ⟨stored, module, number, answers, hget, hversion, htext, fun hi => ?_, hmodule⟩
    have hempty : TreeStore.Current env.engine s.trees := by
      intro uri stored hu
      have hnone := hbegin.trees uri
      rw [hu] at hnone
      cases hnone
    exact htext ▸ trees_current_after hi hempty calls uri stored hget
  · rw [htracks.documents] at hd
    obtain ⟨⟨version, text⟩, hn, rfl⟩ := Option.map_eq_some_iff.1 hd
    obtain ⟨version', text', hn', hle⟩ := Notes.foldl_later hn hkeep
    have hlater := (hbegin.after he hmore).documents uri
    rw [List.foldl_append] at hlater
    refine ⟨⟨uri, some version', text'⟩, version, version', ?_, rfl, rfl, hle⟩
    exact hlater.trans (congrArg (Option.map _) hn')
  · obtain ⟨tree, hu⟩ := htracks.update he ho ha
    exact ⟨tree, congrArg Prod.fst hu⟩

def editedUri : Uri := ⟨"file:///edited.pkl".toList, by decide⟩

def shutUri : Uri := ⟨"file:///shut.pkl".toList, by decide⟩

/-- Two documents are opened; one is changed twice in one batch and is then refused a change of an
older version, the other is closed. -/
def editCalls : List Call :=
  [.openDocument editedUri 1 "x = 1\n".toList,
    .openDocument shutUri 1 "import \"edited.pkl\"\n".toList,
    .change editedUri 3
      [⟨some ⟨⟨0, 4⟩, ⟨0, 5⟩⟩, "22".toList⟩, ⟨some ⟨⟨0, 0⟩, ⟨0, 1⟩⟩, "y".toList⟩],
    .change editedUri 2 [⟨none, "z\n".toList⟩],
    .close shutUri]

theorem session_refines_notes_edited :
    (SessionEnv.ofFiles {}).engine.Total ∧
    ∃ s, Session.start (.ofFiles {}) = .ok s ∧ s.Returned (.ofFiles {}) editCalls ∧
      (s.after (.ofFiles {}) editCalls).document? editedUri =
        some ⟨editedUri, some 3, "y = 22\n".toList⟩ ∧
      editedUri ∈ (s.after (.ofFiles {}) editCalls).trees.keys ∧
      shutUri ∉ (s.after (.ofFiles {}) editCalls).trees.keys := by
  have he : (SessionEnv.ofFiles {}).engine.Total := ⟨fun _ => rfl, fun _ _ _ => rfl⟩
  have hsource : ∀ document, ((SessionEnv.ofFiles {}).source document).comesBack := fun _ => rfl
  obtain ⟨hreturns, hall⟩ := session_refines_notes (start_ofFiles {}) he
  have hc := hreturns hsource editCalls
  obtain ⟨hdocs, hkeys, _⟩ := hall editCalls hc
  have hedited : (folded editCalls).document? editedUri =
      some ⟨editedUri, some 3, "y = 22\n".toList⟩ := by decide +kernel
  have hshut : (folded editCalls).document? shutUri = none := by decide +kernel
  refine ⟨he, _, start_ofFiles {}, hc, (hdocs editedUri).trans hedited, ?_, ?_⟩
  · rw [hkeys, hdocs, hedited]
    rfl
  · rw [hkeys, hdocs, hshut]
    decide

end ModuleLens
