import ModuleLens.Outline.Engine
import ModuleLens.Proofs.Linker.Confluence
import ModuleLens.Proofs.Linker.Outdated
import ModuleLens.Session

/-! Sessions, call by call.  Opening or changing a document forgets the modules that lead to it,
builds its module over the snapshots that were open before, and only then makes its own snapshot
current.  So one call is one build over the memory of what was stored and not forgotten. -/

namespace ModuleLens

open Node

/-- What a session relies on its catalog and its module source for. -/
structure SessionEnv.Regular (env : SessionEnv) : Prop where
  located : env.catalog.Honest
  parses : ∀ document, env.source document = .failed ∨ ∃ tree, env.source document = .tree tree

theorem SessionEnv.regular_sourceOf {settings : Settings} {engine parser : Engine}
    {catalog : Catalog} (h : catalog.Honest) :
    SessionEnv.Regular ⟨settings, engine, catalog, SessionEnv.sourceOf parser⟩ :=
  ⟨h, (ModuleLens.regular_sourceOf h parser 0).parses⟩

def SessionEnv.ofFiles (files : Table Text Text) : SessionEnv where
  settings := {}
  engine := Outline.engine 14
  catalog := .ofFiles {} files
  source := SessionEnv.sourceOf (Outline.engine 14)

theorem SessionEnv.regular_ofFiles (files : Table Text Text) : (ofFiles files).Regular :=
  regular_sourceOf (Catalog.honest_ofFiles {} files)

def Linker.memory (l : Linker) : Edition → Option Product := fun k => SharedStore.value? l.modules k

namespace Linker

variable {l : Linker}

theorem memory_eq_some {k : Edition} {p : Product} :
    l.memory k = some p ↔ l.modules.get? k = some (.ready p) := by
  rw [memory, SharedStore.value?]
  split
  · next h => simp [h]
  · next h => simpa using fun hk => h p hk

theorem faithful_memory {env : ImportEnv} (hr : env.Regular) (l : Linker) :
    l.Faithful env l.memory :=
  ⟨memory_eq_some.1, fun hk => ImportEnv.fits_of_memory hr (memory_eq_some.2 hk)⟩

def emptied (l : Linker) : Linker := { l with modules := {} }

theorem Quiet.emptied (h : l.Quiet) : l.emptied.Quiet :=
  ⟨coherent_empty rfl, h.waiting, h.idle, fun _ hk => (nomatch hk), h.replies⟩

theorem memory_forget_emptied (l : Linker) (uri : Uri) :
    (l.emptied.forget uri).memory = ImportEnv.nothing := rfl

end Linker

namespace TreeStore

variable {e : Engine} {s : TreeStore} {old new : Document} {changes : List Change}

theorem update_of_ok {parsed : Update} (hu : old.uri = new.uri)
    (h : (update e s old new changes).1 = .ok parsed) :
    update e s old new changes = (.ok parsed, keep s new parsed.tree) := by
  have hsame (tree : SyntaxTree) : supersede s old new tree = keep s new tree := by
    rw [supersede, if_pos hu]
  rw [update] at h ⊢
  split at h
  · cases h
    rw [hsame]
  · split at h
    · cases h
      rw [hsame]
    · cases h

theorem update_of_error {error : EngineError} (h : (update e s old new changes).1 = .error error) :
    update e s old new changes = (.error error, s) := by
  rw [update] at h ⊢
  split at h
  · cases h
  · split at h
    · cases h
    · cases h
      rfl

theorem update_congr {s' : TreeStore} (h : s'.get? old.uri = s.get? old.uri) :
    (update e s' old new changes).1 = (update e s old new changes).1 := by
  have htree : treeOf? s' old = treeOf? s old := by rw [treeOf?, treeOf?, h]
  rw [update, update, updated?, updated?, htree]
  split
  · rfl
  · split
    · rfl
    · rfl

end TreeStore

namespace Session

inductive Call where
  | openDocument (uri : Uri) (version : Int) (text : Text)
  | change (uri : Uri) (version : Int) (changes : List Change)
  | close (uri : Uri)

def Call.uri : Call → Uri
  | openDocument uri _ _ | change uri _ _ | close uri => uri

def serve (env : SessionEnv) (s : Session) :
    Call → Option (Except SessionError (Fate Node)) × Session
  | .openDocument uri version text =>
    let (result, s) := s.openDocument env uri version text
    (some result, s)
  | .change uri version changes =>
    let (result, s) := s.change env uri version changes
    (some result, s)
  | .close uri => (none, (s.close uri).2)

def after (env : SessionEnv) (s : Session) (calls : List Call) : Session :=
  calls.foldl (fun s call => (s.serve env call).2) s

def emptied (s : Session) : Session := { s with linker := s.linker.emptied }

/-- The tree and the snapshot that a call builds a module from. -/
def basis? (env : SessionEnv) (s : Session) : Call → Option (SyntaxTree × Document)
  | .openDocument uri version text => (env.engine.parse text).map (·, ⟨uri, some version, text⟩)
  | .change uri version changes => do
    let old ← s.document? uri
    let new ← (old.apply changes (some version)).toOption
    let parsed ← (TreeStore.update env.engine s.trees old new changes).1.toOption
    return (parsed.tree, new)
  | .close _ => none

theorem basis?_ofFiles (files : Table Text Text) (s : Session) (uri : Uri) (version : Int)
    (text : Text) : s.basis? (.ofFiles files) (.openDocument uri version text) =
      some (Outline.parseStrict text, ⟨uri, some version, text⟩) := rfl

theorem start_ofFiles (files : Table Text Text) :
    Session.start (.ofFiles files) =
      .ok { linker := .ofWorkers (SessionEnv.ofFiles files).settings.workers } := rfl

structure Sound (s : Session) : Prop where
  quiet : s.linker.Quiet
  queue : s.linker.queue = []
  opened : ∀ uri document, s.document? uri = some document → document.uri = uri

variable {env : SessionEnv} {s : Session}

theorem start_sound (h : Session.start env = .ok s) :
    s.Sound ∧ s.linker.modules = {} ∧ ∀ uri, s.document? uri = none := by
  rw [Session.start] at h
  split at h
  · cases h
    have hw : 0 < env.settings.workers := by
      rw [Settings.workers]
      omega
    exact ⟨⟨Linker.quiet_ofWorkers hw, rfl, fun _ _ hd => (nomatch hd)⟩, rfl, fun _ => rfl⟩
  · cases h

theorem Sound.regular (h : s.Sound) (hr : env.Regular) : (s.importEnv env).Regular :=
  ⟨hr.located.shadowedBy h.opened, hr.parses⟩

theorem Sound.emptied (h : s.Sound) : s.emptied.Sound := ⟨h.quiet.emptied, h.queue, h.opened⟩

theorem document?_insert (s : Session) (uri u : Uri) (t : Tracked) :
    Option.map Tracked.document ((s.opened.insert uri t).get? u) =
      if u = uri then some t.document else s.document? u := by
  rw [Table.get?_insert]
  split
  · rfl
  · rfl

theorem uri_apply {old new : Document} {changes : List Change} {version : Option Int}
    (h : old.apply changes version = .ok new) : new.uri = old.uri := by
  rw [Document.apply] at h
  split at h
  · cases h
  · cases ht : changes.foldlM (Document.applyChange (changes.length == 1)) old.text with
    | error e =>
      rw [ht] at h
      cases h
    | ok text =>
      rw [ht] at h
      cases h
      rfl

theorem uri_basis (h : ∀ uri document, s.document? uri = some document → document.uri = uri)
    {call : Call} {tree : SyntaxTree} {document : Document}
    (he : s.basis? env call = some (tree, document)) : document.uri = call.uri := by
  cases call with
  | openDocument uri version text =>
    obtain ⟨_, _, ht⟩ := Option.map_eq_some_iff.1 he
    cases ht
    rfl
  | change uri version changes =>
    simp only [basis?, Option.bind_eq_bind, Option.bind_eq_some_iff] at he
    obtain ⟨old, ho, new, hn, parsed, _, heq⟩ := he
    cases heq
    cases ha : old.apply changes (some version) with
    | error e =>
      rw [ha] at hn
      cases hn
    | ok d =>
      rw [ha] at hn
      cases hn
      exact (uri_apply ha).trans (h uri old ho)
  | close uri => cases he

/-- A call that has a basis keeps its tree and builds its module. -/
theorem serve_kept {call : Call} {tree : SyntaxTree} {document : Document}
    (he : s.basis? env call = some (tree, document)) :
    s.serve env call =
      (some (.ok (rebuild env { s with trees := TreeStore.keep s.trees document tree }
          document tree).1),
        (rebuild env { s with trees := TreeStore.keep s.trees document tree }
          document tree).2) := by
  cases call with
  | openDocument uri version text =>
    obtain ⟨parsed, hp, ht⟩ := Option.map_eq_some_iff.1 he
    cases ht
    simp only [serve, openDocument, TreeStore.track, TreeStore.parseAlone, hp]
  | change uri version changes =>
    simp only [basis?, Option.bind_eq_bind, Option.bind_eq_some_iff] at he
    obtain ⟨old, ho, new, hn, parsed, hp, heq⟩ := he
    cases heq
    cases ha : old.apply changes (some version) with
    | error e =>
      rw [ha] at hn
      cases hn
    | ok d =>
      rw [ha] at hn
      cases hn
      cases hu : (TreeStore.update env.engine s.trees old document changes).1 with
      | error e =>
        rw [hu] at hp
        cases hp
      | ok update =>
        rw [hu] at hp
        cases hp
        have hkeep := TreeStore.update_of_ok (uri_apply ha).symm hu
        simp only [serve, change, ho, ha, hkeep]
  | close uri => cases he

theorem serve_basis {call : Call} {tree : SyntaxTree} {document : Document}
    (he : s.basis? env call = some (tree, document)) :
    ∃ trees, s.serve env call =
      (some (.ok (rebuild env { s with trees } document tree).1),
        (rebuild env { s with trees } document tree).2) :=
  ⟨_, serve_kept he⟩

theorem basis?_open {uri : Uri} {version : Int} {text : Text} {tree : SyntaxTree}
    (h : TreeStore.parseAlone env.engine ⟨uri, some version, text⟩ = .ok tree) :
    s.basis? env (.openDocument uri version text) = some (tree, ⟨uri, some version, text⟩) := by
  rw [TreeStore.parseAlone] at h
  split at h
  · next hp =>
    cases h
    rw [basis?, hp]
    rfl
  · cases h

theorem serve_unparsed {uri : Uri} {version : Int} {text : Text} {e : EngineError}
    (h : TreeStore.parseAlone env.engine ⟨uri, some version, text⟩ = .error e) :
    s.serve env (.openDocument uri version text) = (some (.error (.engine e)), s) := by
  simp only [serve, openDocument, TreeStore.track, h]

section Change

variable {uri : Uri} {version : Int} {changes : List Change} {old new : Document}

theorem serve_unknown (ho : s.document? uri = none) :
    s.serve env (.change uri version changes) = (some (.error (.unknownDocument uri)), s) := by
  simp only [serve, change, ho]

theorem serve_refused {e : EditError} (ho : s.document? uri = some old)
    (ha : old.apply changes (some version) = .error e) :
    s.serve env (.change uri version changes) = (some (.error (.edit e)), s) := by
  simp only [serve, change, ho, ha]

theorem serve_unreparsed {e : EngineError} (ho : s.document? uri = some old)
    (ha : old.apply changes (some version) = .ok new)
    (hu : (TreeStore.update env.engine s.trees old new changes).1 = .error e) :
    s.serve env (.change uri version changes) = (some (.error (.engine e)), s) := by
  simp only [serve, change, ho, ha, TreeStore.update_of_error hu]

theorem basis?_change {parsed : Update} (ho : s.document? uri = some old)
    (ha : old.apply changes (some version) = .ok new)
    (hu : (TreeStore.update env.engine s.trees old new changes).1 = .ok parsed) :
    s.basis? env (.change uri version changes) = some (parsed.tree, new) := by
  simp [basis?, ho, ha, hu, Except.toOption]

end Change

theorem serve_no_basis {call : Call} (he : s.basis? env call = none)
    (hc : ∀ uri, call ≠ .close uri) : ∃ e, s.serve env call = (some (.error e), s) := by
  cases call with
  | openDocument uri version text =>
    have hp : env.engine.parse text = none := Option.map_eq_none_iff.1 he
    exact ⟨_, serve_unparsed (by simp only [TreeStore.parseAlone, hp]; rfl)⟩
  | change uri version changes =>
    cases ho : s.document? uri with
    | none => exact ⟨_, serve_unknown ho⟩
    | some old =>
      cases ha : old.apply changes (some version) with
      | error e => exact ⟨_, serve_refused ho ha⟩
      | ok new =>
        cases hu : (TreeStore.update env.engine s.trees old new changes).1 with
        | error e => exact ⟨_, serve_unreparsed ho ha hu⟩
        | ok parsed =>
          rw [basis?_change ho ha hu] at he
          cases he
  | close uri => exact (hc uri rfl).elim

/-- One build of a session: it comes to a module, as recursion over any memory that its store is
faithful to would make it, and makes the snapshot current. -/
theorem rebuild_spec (hr : env.Regular) (h : s.Sound) (document : Document) (tree : SyntaxTree) :
    ∃ module l', s.rebuild env document tree =
        (.done module,
          { s with linker := l', opened := s.opened.insert document.uri ⟨document, module⟩ }) ∧
      l'.Quiet ∧ l'.queue = [] ∧ (s.linker.forget document.uri).Grows (s.importEnv env) l' ∧
      module.edition = document.edition 0 ∧ (∀ t, Imports module t → l'.Holds t) ∧
      ∀ memory, (s.linker.forget document.uri).Faithful (s.importEnv env) memory →
        l'.Faithful (s.importEnv env) memory ∧
          module.plain = ((s.importEnv env).entryWith memory tree document).plain := by
  have hri := h.regular hr
  have hq := h.quiet.forget document.uri
  obtain ⟨module, l', hb, hq', he', hg, hm, deeds, hcalm, hrun⟩ :=
    Linker.buildEntryTree_spec hri hq h.queue tree document
  refine ⟨module, l', ?_, hq', he', hg, hm.edition rfl, fun t => hm.targets rfl,
    fun memory hf => ?_⟩
  · rw [rebuild, hb]
  · let l₀ : Linker := { s.linker.forget document.uri with
      drafts := (s.linker.forget document.uri).drafts + 1 }
    have hq₀ : l₀.Quiet := hq.congr rfl (Nat.le_succ _) rfl rfl rfl (Nat.le_refl _)
    have hc : (Linker.entryOf (s.linker.forget document.uri).drafts tree document).Sound
        (s.importEnv env) memory (fun t d => t = some tree ∧ d = document) (fun _ _ => True)
        l₀.tickets :=
      ⟨⟨rfl, rfl⟩, .refl {}, fun _ hn => nomatch hn⟩
    obtain ⟨due, hsound⟩ := hrun.sound hri hcalm (hq₀.sound h.queue (hf.congr rfl) hc)
    exact ⟨hsound.faithful, (hsound.callers _ List.mem_cons_self).2⟩

/-- A call that builds a module and makes its snapshot current. -/
structure Built (env : SessionEnv) (s : Session) (call : Call) (tree : SyntaxTree)
    (document : Document) (module : Node) (s' : Session) : Prop where
  basis : s.basis? env call = some (tree, document)
  uri : document.uri = call.uri
  serve : s.serve env call = (some (.ok (.done module)), s')
  sound : s'.Sound
  documents : ∀ u, s'.document? u = if u = call.uri then some document else s.document? u
  grows : (s.linker.forget call.uri).Grows (s.importEnv env) s'.linker
  edition : module.edition = document.edition 0
  stored : ∀ t, Imports module t → s'.linker.Holds t
  recalls : ∀ memory, (s.linker.forget call.uri).Faithful (s.importEnv env) memory →
    s'.linker.Faithful (s.importEnv env) memory ∧
      module.plain = ((s.importEnv env).entryWith memory tree document).plain

theorem exists_built (hr : env.Regular) (h : s.Sound) {call : Call} {tree : SyntaxTree}
    {document : Document} (he : s.basis? env call = some (tree, document)) :
    ∃ module s', s.Built env call tree document module s' := by
  have huri := uri_basis h.opened he
  obtain ⟨trees, hserve⟩ := serve_basis he
  have ht : Sound { s with trees } := ⟨h.quiet, h.queue, h.opened⟩
  obtain ⟨module, l', hb, hq, hq', hg, hed, hi, hm⟩ := rebuild_spec hr ht document tree
  rw [hb] at hserve
  rw [huri] at hg hm hserve
  have hdoc (u : Uri) := document?_insert s call.uri u ⟨document, module⟩
  refine ⟨module, _, he, huri, hserve, ⟨hq, hq', fun u d hd => ?_⟩, hdoc, hg, hed, hi, hm⟩
  have hd := (hdoc u).symm.trans hd
  split at hd
  · next hu =>
    cases hd
    exact huri.trans hu.symm
  · exact h.opened u d hd

/-- What one call does to a session: it builds a module, or fails, or closes a document. -/
theorem serve_cases (hr : env.Regular) (h : s.Sound) (call : Call) :
    (∃ tree document module s', s.Built env call tree document module s') ∨
    (∃ e s', s.serve env call = (some (.error e), s') ∧ s'.Sound ∧ s'.linker = s.linker ∧
      s'.document? = s.document?) ∨
    (∃ s', s.serve env call = (none, s') ∧ s'.Sound ∧ s'.linker = s.linker.forget call.uri ∧
      ∀ u, s'.document? u = if u = call.uri then none else s.document? u) := by
  cases he : s.basis? env call with
  | some entry => exact .inl ⟨entry.1, entry.2, exists_built hr h he⟩
  | none =>
    by_cases hc : ∃ uri, call = .close uri
    · obtain ⟨uri, rfl⟩ := hc
      have hdoc (u : Uri) : Option.map Tracked.document ((s.opened.erase uri).get? u) =
          if u = uri then none else s.document? u := by
        rw [Table.get?_erase]
        split
        · rfl
        · rfl
      refine .inr (.inr ⟨_, rfl, ⟨h.quiet.forget uri, h.queue, fun u d hd => ?_⟩, rfl, hdoc⟩)
      have hd := (hdoc u).symm.trans hd
      split at hd
      · cases hd
      · exact h.opened u d hd
    · obtain ⟨e, hserve⟩ := serve_no_basis he fun uri hu => hc ⟨uri, hu⟩
      exact .inr (.inl ⟨e, s, hserve, h, rfl, rfl⟩)

theorem exists_built_of_ok (hr : env.Regular) (h : s.Sound) {call : Call} {fate : Fate Node}
    (hok : (s.serve env call).1 = some (.ok fate)) :
    ∃ tree document module s', fate = .done module ∧
      s.Built env call tree document module s' := by
  rcases serve_cases hr h call with ⟨tree, document, module, s', hb⟩ | ⟨_, _, hs, _⟩ | ⟨_, hs, _⟩
  · rw [hb.serve] at hok
    cases hok
    exact ⟨tree, document, module, s', rfl, hb⟩
  · rw [hs] at hok
    cases hok
  · rw [hs] at hok
    cases hok

theorem Sound.serve (hr : env.Regular) (h : s.Sound) (call : Call) :
    (s.serve env call).2.Sound := by
  rcases serve_cases hr h call with ⟨_, _, _, s', hb⟩ | ⟨_, s', hs, hsound, _⟩ | ⟨s', hs, hsound, _⟩
  · rw [hb.serve]
    exact hb.sound
  · rw [hs]
    exact hsound
  · rw [hs]
    exact hsound

theorem Sound.after (hr : env.Regular) (h : s.Sound) (calls : List Call) :
    (s.after env calls).Sound := by
  induction calls generalizing s with
  | nil => exact h
  | cons call calls ih => exact ih (h.serve hr call)

end Session

end ModuleLens
