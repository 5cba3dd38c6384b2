import ModuleLens.Proofs.Document
import ModuleLens.Proofs.Session.Editors

/-! Refused calls.  A call fails where its rules say and nowhere else, and everything that may fail
in it stands before the first thing that it writes: its turns read the session and leave it alone up
to the last parse, also when other calls write to the session in between. -/

namespace ModuleLens

open Node

namespace Document

/-- Edits fail at the first one that does not apply to what those before it have left. -/
theorem foldlM_eq_error {alone : Bool} {changes : List Change} {t : Text} {e : EditError} :
    changes.foldlM (applyChange alone) t = .error e ↔
      ∃ done change rest u, changes = done ++ change :: rest ∧
        done.foldlM (applyChange alone) t = .ok u ∧ applyChange alone u change = .error e := by
  constructor
  · intro h
    induction changes generalizing t with
    | nil => cases h
    | cons first changes ih =>
      rw [List.foldlM_cons] at h
      cases ha : applyChange alone t first with
      | error e' =>
        rw [ha] at h
        cases h
        exact ⟨[], first, changes, t, rfl, rfl, ha⟩
      | ok u =>
        rw [ha] at h
        obtain ⟨done, change, rest, v, rfl, hdone, hchange⟩ := ih h
        refine ⟨first :: done, change, rest, v, rfl, ?_, hchange⟩
        rw [List.foldlM_cons, ha]
        exact hdone
  · rintro ⟨done, change, rest, u, rfl, hdone, hchange⟩
    rw [List.foldlM_append, hdone]
    change (change :: rest).foldlM (applyChange alone) u = _
    rw [List.foldlM_cons, hchange]
    rfl

theorem apply_eq_error {d : Document} {changes : List Change} {next : Option Int} {e : EditError} :
    d.apply changes next = .error e ↔
      (∃ stale, d.isStale next = some stale ∧ e = .staleVersion stale.1 stale.2) ∨
      d.isStale next = none ∧
        changes.foldlM (applyChange (changes.length == 1)) d.text = .error e := by
  cases hs : d.isStale next with
  | some stale => simp [Document.apply, hs, eq_comm]
  | none =>
    rw [apply_of_fresh hs]
    cases changes.foldlM (applyChange (changes.length == 1)) d.text <;> simp [Except.map]

theorem isStale_eq_some {d : Document} {version : Int} {stale : Int × Int} :
    d.isStale (some version) = some stale ↔
      ∃ current, d.version = some current ∧ version < current ∧ stale = (current, version) := by
  cases hd : d.version with
  | none => simp [isStale, hd]
  | some current => simp [isStale, hd, eq_comm]

theorem isStale_eq_none {d : Document} {version : Int} :
    d.isStale (some version) = none ↔ ∀ current, d.version = some current → current ≤ version := by
  cases hd : d.version with
  | none => simp [isStale, hd]
  | some current => simp [isStale, hd]

end Document

theorem TreeStore.update_eq_error {e : Engine} {s : TreeStore} {old new : Document}
    {changes : List Change} {error : EngineError} :
    (update e s old new changes).1 = .error error ↔
      updated? e s old new changes = none ∧ e.parse new.text = none ∧ error = .noTree new.uri := by
  cases hu : updated? e s old new changes with
  | some tree => simp [update, hu]
  | none => cases hp : e.parse new.text <;> simp [update, hu, parseAlone, hp, eq_comm]

namespace Session

variable {env : SessionEnv} {s : Session} {call : Call}

/-- Why a session refuses a call, and with which error. -/
inductive Refuses (env : SessionEnv) (s : Session) : Call → SessionError → Prop where
  | unparsed {uri : Uri} {text : Text} (version : Int) (h : env.engine.parse text = none) :
      Refuses env s (.openDocument uri version text) (.engine (.noTree uri))
  | unknown {uri : Uri} (version : Int) (changes : List Change) (h : s.document? uri = none) :
      Refuses env s (.change uri version changes) (.unknownDocument uri)
  | stale {uri : Uri} {version current : Int} {text : Text} (changes : List Change)
      (h : s.document? uri = some ⟨uri, some current, text⟩) (hv : version < current) :
      Refuses env s (.change uri version changes) (.edit (.staleVersion current version))
  /-- An edit does not apply to the text that the edits before it have left. -/
  | edit {uri : Uri} {version : Int} {old : Document} {done rest : List Change} {change : Change}
      {text : Text} {e : EditError} (h : s.document? uri = some old)
      (hv : ∀ current, old.version = some current → current ≤ version)
      (hdone : done.foldlM (Document.applyChange ((done ++ change :: rest).length == 1)) old.text =
        .ok text)
      (he : Document.applyChange ((done ++ change :: rest).length == 1) text change = .error e) :
      Refuses env s (.change uri version (done ++ change :: rest)) (.edit e)
  /-- There is a tree neither from the edits nor from scratch. -/
  | unreparsed {uri : Uri} {version : Int} {changes : List Change} {old new : Document}
      (h : s.document? uri = some old) (ha : old.apply changes (some version) = .ok new)
      (hu : TreeStore.updated? env.engine s.trees old new changes = none)
      (hp : env.engine.parse new.text = none) :
      Refuses env s (.change uri version changes) (.engine (.noTree uri))

/-- Snapshots stand at their own locations. -/
def Named (s : Session) : Prop :=
  ∀ uri document, s.document? uri = some document → document.uri = uri

theorem document?_rebuild (s : Session) (document : Document) (tree : SyntaxTree) (u : Uri) :
    (s.rebuild env document tree).2.document? u = s.document? u ∨
      u = document.uri ∧ (s.rebuild env document tree).2.document? u = some document := by
  rw [rebuild]
  split
  next fate linker _ =>
    cases fate with
    | done module =>
      have hget := document?_insert s document.uri u ⟨document, module⟩
      by_cases hu : u = document.uri
      · exact .inr ⟨hu, hget.trans (if_pos hu)⟩
      · exact .inl (hget.trans (if_neg hu))
    | unwound => exact .inl rfl
    | stuck => exact .inl rfl

theorem Named.serve (h : s.Named) (call : Call) : (s.serve env call).2.Named := by
  intro uri d hd
  cases he : s.basis? env call with
  | some entry =>
    obtain ⟨tree, document⟩ := entry
    obtain ⟨trees, hserve⟩ := serve_basis he
    rw [hserve] at hd
    rcases document?_rebuild { s with trees } document tree uri with hold | ⟨hu, hnew⟩
    · exact h uri d (hold.symm.trans hd)
    · cases hnew.symm.trans hd
      exact hu.symm
  | none =>
    by_cases hc : ∃ uri, call = .close uri
    · obtain ⟨closed, rfl⟩ := hc
      rw [document?_eq, Session.serve, place_close] at hd
      split at hd
      · cases hd
      · exact h uri d hd
    · obtain ⟨e, hserve⟩ := serve_no_basis he fun uri hu => hc ⟨uri, hu⟩
      rw [hserve] at hd
      exact h uri d hd

theorem Named.after (h : s.Named) (calls : List Call) : (s.after env calls).Named := by
  induction calls generalizing s with
  | nil => exact h
  | cons call calls ih => exact ih (h.serve call)

theorem start_named (h : Session.start env = .ok s) : s.Named := (start_inPlace h).named

theorem Refuses.serve (hn : s.Named) {e : SessionError} (h : s.Refuses env call e) :
    s.serve env call = (some (.error e), s) := by
  cases h with
  | unparsed version hp => exact serve_unparsed (by simp only [TreeStore.parseAlone, hp])
  | unknown version changes ho => exact serve_unknown ho
  | stale changes ho hv =>
    refine serve_refused ho (Document.apply_eq_error.2 (.inl ⟨(_, _), ?_, rfl⟩))
    simp [Document.isStale, hv]
  | edit ho hv hdone he =>
    exact serve_refused ho (Document.apply_eq_error.2 (.inr ⟨Document.isStale_eq_none.2 hv,
      Document.foldlM_eq_error.2 ⟨_, _, _, _, rfl, hdone, he⟩⟩))
  | unreparsed ho ha hu hp =>
    have huri := (uri_apply ha).trans (hn _ _ ho)
    exact serve_unreparsed ho ha
      (TreeStore.update_eq_error.2 ⟨hu, hp, congrArg EngineError.noTree huri.symm⟩)

theorem basis?_of_error {e : SessionError} (h : (s.serve env call).1 = some (.error e)) :
    s.basis? env call = none := by
  cases he : s.basis? env call with
  | none => rfl
  | some entry =>
    obtain ⟨trees, hserve⟩ := serve_basis he
    rw [hserve] at h
    cases h

theorem refuses_of_serve (hn : s.Named) {e : SessionError}
    (h : (s.serve env call).1 = some (.error e)) : s.Refuses env call e := by
  have hbasis := basis?_of_error h
  cases call with
  | openDocument uri version text =>
    have hp : env.engine.parse text = none := Option.map_eq_none_iff.1 hbasis
    rw [serve_unparsed (by simp only [TreeStore.parseAlone, hp]; rfl)] at h
    cases h
    exact .unparsed version hp
  | change uri version changes =>
    cases ho : s.document? uri with
    | none =>
      rw [serve_unknown ho] at h
      cases h
      exact .unknown version changes ho
    | some old =>
      cases ha : old.apply changes (some version) with
      | error e =>
        rw [serve_refused ho ha] at h
        cases h
        -- the version is checked before any of the edits
        rcases Document.apply_eq_error.1 ha with ⟨stale, hs, rfl⟩ | ⟨hs, hfold⟩
        · obtain ⟨current, hcurrent, hlt, rfl⟩ := Document.isStale_eq_some.1 hs
          obtain rfl := hn uri old ho
          have hold : s.document? old.uri = some ⟨old.uri, some current, old.text⟩ := by
            rw [ho, ← hcurrent]
          exact .stale changes hold hlt
        · obtain ⟨done, change, rest, text, rfl, hdone, hchange⟩ := Document.foldlM_eq_error.1 hfold
          exact .edit ho (Document.isStale_eq_none.1 hs) hdone hchange
      | ok new =>
        cases hu : (TreeStore.update env.engine s.trees old new changes).1 with
        | ok parsed =>
          rw [basis?_change ho ha hu] at hbasis
          cases hbasis
        | error error =>
          rw [serve_unreparsed ho ha hu] at h
          cases h
          obtain ⟨hedits, hparse, rfl⟩ := TreeStore.update_eq_error.1 hu
          rw [uri_apply ha, hn uri old ho]
          exact .unreparsed ho ha hedits hparse
  | close uri => cases h

theorem serve_eq_error (hn : s.Named) {e : SessionError} :
    (s.serve env call).1 = some (.error e) ↔ s.Refuses env call e :=
  ⟨refuses_of_serve hn, fun h => congrArg Prod.fst (h.serve hn)⟩

def isRefusal : Option (Except SessionError (Fate Node)) → Bool
  | some (.error _) => true
  | _ => false

def replies (env : SessionEnv) :
    Session → List Call → List (Option (Except SessionError (Fate Node)))
  | _, [] => []
  | s, call :: calls => (s.serve env call).1 :: replies env (s.serve env call).2 calls

/-- The calls of a history that are not refused. -/
def heeded (env : SessionEnv) : Session → List Call → List Call
  | _, [] => []
  | s, call :: calls =>
    if isRefusal (s.serve env call).1 then heeded env (s.serve env call).2 calls
    else call :: heeded env (s.serve env call).2 calls

theorem isRefusal_iff {reply : Option (Except SessionError (Fate Node))} :
    isRefusal reply ↔ ∃ e, reply = some (.error e) := by
  rcases reply with _ | _ | _ <;> simp [isRefusal]

theorem serve_of_refusal (h : isRefusal (s.serve env call).1) : (s.serve env call).2 = s := by
  obtain ⟨e, he⟩ := isRefusal_iff.1 h
  obtain ⟨e', hserve⟩ := serve_no_basis (basis?_of_error he) (by
    rintro uri rfl
    cases he)
  rw [hserve]

/-- A history goes on as if its refused calls had not been made. -/
theorem after_heeded (env : SessionEnv) (s : Session) (calls : List Call) :
    s.after env (s.heeded env calls) = s.after env calls ∧
      s.replies env (s.heeded env calls) = (s.replies env calls).filter (! isRefusal ·) := by
  induction calls generalizing s with
  | nil => exact ⟨rfl, rfl⟩
  | cons call calls ih =>
    obtain ⟨hafter, hreplies⟩ := ih (s.serve env call).2
    rw [heeded, replies]
    by_cases hr : isRefusal (s.serve env call).1
    · have hs := serve_of_refusal hr
      rw [if_pos hr, List.filter_cons_of_neg (by simp [hr])]
      rw [hs] at hafter hreplies ⊢
      refine ⟨hafter.trans ?_, hreplies⟩
      rw [after, after, List.foldl_cons, hs]
    · rw [if_neg hr, List.filter_cons_of_pos (by simp [hr]), replies, hreplies]
      exact ⟨hafter, rfl⟩

/-- The turns of one call so far, each with the session before and after it, and the stage that
they have come to; between them others may have changed the session. -/
inductive Trail (env : SessionEnv) (call : Call) : List (Session × Session) → Stage → Prop where
  | begun : Trail env call [] .begun
  | turn {turns : List (Session × Session)} {s s' : Session} {stage stage' : Stage}
      (h : Trail env call turns stage) (ht : Turn env call s stage s' stage') :
      Trail env call (turns ++ [(s, s')]) stage'

/-- The stages that a call comes to before it writes anything. -/
def Stage.Unwritten : Stage → Prop
  | .begun | .edited .. | .parsed .. | .returned (.failed _) => True
  | _ => False

theorem Turn.unwritten {s' : Session} {stage stage' : Stage} (h : Turn env call s stage s' stage')
    (hu : stage'.Unwritten) : s' = s ∧ stage.Unwritten := by
  cases h with
  | parse | unparsed | unknown | refuse | edit | reparse | unreparsed => exact ⟨rfl, trivial⟩
  | keep | supersede | evict | draft | build | publish | retire | remove | forget => exact hu.elim

/-- Nothing is written in a call up to its last possible failure. -/
theorem Trail.unwritten {turns : List (Session × Session)} {stage : Stage}
    (h : Trail env call turns stage) (hu : stage.Unwritten) : ∀ turn ∈ turns, turn.2 = turn.1 := by
  induction h with
  | begun => exact fun _ hm => nomatch hm
  | turn _ ht ih =>
    -- no turn leads from a stage after a write to one before it
    obtain ⟨hsame, hbefore⟩ := ht.unwritten hu
    intro turn hm
    rcases List.mem_append.1 hm with hm | hm
    · exact ih hbefore turn hm
    · rw [List.mem_singleton.1 hm]
      exact hsame

end Session

open Session

/-- A session refuses what its rules refuse and nothing else.  A refused call leaves the snapshots,
the modules, the stored trees and what imports are served from as they were, so every later call
goes as if it had not been made; and it writes nothing on its way either, whatever other calls write
between its turns. -/
theorem refused_leaves_no_trace {env : SessionEnv} {s₀ : Session}
    (h₀ : Session.start env = .ok s₀) (calls : List Call) :
    (∀ call e, ((s₀.after env calls).serve env call).1 = some (.error e) ↔
      (s₀.after env calls).Refuses env call e) ∧
    (∀ call e, (s₀.after env calls).Refuses env call e →
      ((s₀.after env calls).serve env call).2 = s₀.after env calls ∧
      ∀ next, (s₀.after env (calls ++ [call])).serve env next =
        (s₀.after env calls).serve env next) ∧
    (s₀.after env (s₀.heeded env calls) = s₀.after env calls ∧
      s₀.replies env (s₀.heeded env calls) = (s₀.replies env calls).filter (! isRefusal ·)) ∧
    ∀ call turns e, Trail env call turns (.returned (.failed e)) → ∀ turn ∈ turns,
      turn.2 = turn.1 := by
  have hn : (s₀.after env calls).Named := (start_named h₀).after calls
  refine ⟨fun call e => serve_eq_error hn, fun call e h => ?_, after_heeded env s₀ calls,
    fun call turns e h => h.unwritten trivial⟩
  have hsame := congrArg Prod.snd (h.serve hn)
  refine ⟨hsame, fun next => ?_⟩
  rw [after, List.foldl_append]
  exact congrArg (Session.serve env · next) hsame

/-- No files, and an engine that has no tree for a text of one question mark. -/
def pickyEnv : SessionEnv := { SessionEnv.ofFiles {} with engine := TreeStore.picky }

/-- What a session refuses that holds the text `x = 1` in one open document: a text without a tree,
a document that is not open, an older version, a batch whose second edit has no range, and an edit
that leads to a text without a tree. -/
def pickyRefusals : List (Call × SessionError) :=
  [(.openDocument TreeStore.secondUri 1 "?".toList, .engine (.noTree TreeStore.secondUri)),
    (.change TreeStore.secondUri 1 [], .unknownDocument TreeStore.secondUri),
    (.change TreeStore.firstUri 0 [], .edit (.staleVersion 1 0)),
    (.change TreeStore.firstUri 2
      [⟨some ⟨⟨0, 4⟩, ⟨0, 5⟩⟩, "2".toList⟩, ⟨none, "y = 3".toList⟩], .edit (.invalidRange none)),
    (.change TreeStore.firstUri 2 [⟨none, "?".toList⟩], .engine (.noTree TreeStore.firstUri))]

theorem updated?_picky (s : TreeStore) (old : Document) (uri : Uri) (version : Option Int)
    (changes : List Change) :
    TreeStore.updated? TreeStore.picky s old ⟨uri, version, "?".toList⟩ changes = none := by
  rw [TreeStore.updated?]
  cases TreeStore.treeOf? s old with
  | none => rfl
  | some tree => cases TreeStore.replay old changes ⟨uri, version, "?".toList⟩ <;> rfl

theorem refuses_picky {s : Session}
    (hfirst : s.document? TreeStore.firstUri =
      some ⟨TreeStore.firstUri, some 1, "x = 1".toList⟩)
    (hsecond : s.document? TreeStore.secondUri = none) :
    ∀ refusal ∈ pickyRefusals, s.Refuses pickyEnv refusal.1 refusal.2 := by
  have hedit : Document.applyChange false "x = 1".toList
      ⟨some ⟨⟨0, 4⟩, ⟨0, 5⟩⟩, "2".toList⟩ = .ok "x = 2".toList := by decide
  have happly : Document.apply ⟨TreeStore.firstUri, some 1, "x = 1".toList⟩
      [⟨none, "?".toList⟩] (some 2) = .ok ⟨TreeStore.firstUri, some 2, "?".toList⟩ := rfl
  simp only [pickyRefusals, List.forall_mem_cons, List.not_mem_nil, false_imp_iff, implies_true,
    and_true]
  refine ⟨.unparsed 1 rfl, .unknown 1 [] hsecond, .stale [] hfirst (by decide), ?_,
    .unreparsed hfirst happly (updated?_picky _ _ _ _ _) rfl⟩
  refine @Refuses.edit _ _ _ _ _ [⟨some ⟨⟨0, 4⟩, ⟨0, 5⟩⟩, "2".toList⟩] [] ⟨none, "y = 3".toList⟩
    _ _ hfirst ?_ hedit rfl
  rintro _ ⟨⟩
  decide

theorem refused_leaves_no_trace_picky :
    ∃ s₀ s, Session.start pickyEnv = .ok s₀ ∧
      s = s₀.after pickyEnv [.openDocument TreeStore.firstUri 1 "x = 1".toList] ∧
      s.document? TreeStore.firstUri = some ⟨TreeStore.firstUri, some 1, "x = 1".toList⟩ ∧
      ∀ refusal ∈ pickyRefusals,
        s.serve pickyEnv refusal.1 = (some (.error refusal.2), s) := by
  obtain ⟨s₀, hstart⟩ : ∃ s₀, Session.start pickyEnv = .ok s₀ := ⟨_, rfl⟩
  obtain ⟨s, hs⟩ : ∃ s, s = s₀.after pickyEnv
    [.openDocument TreeStore.firstUri 1 "x = 1".toList] := ⟨_, rfl⟩
  obtain ⟨hiff, hsame, _, _⟩ := refused_leaves_no_trace hstart
    [.openDocument TreeStore.firstUri 1 "x = 1".toList]
  have hbasis : s₀.basis? pickyEnv (.openDocument TreeStore.firstUri 1 "x = 1".toList) =
      some (Outline.parseStrict "x = 1".toList,
        ⟨TreeStore.firstUri, some 1, "x = 1".toList⟩) := rfl
  obtain ⟨number, answers, _, hplace⟩ := serve_done (fun _ => rfl) hbasis
  change ∀ u, (s₀.after pickyEnv [_]).place u = _ at hplace
  rw [← hs] at hiff hsame hplace
  have hfirst : s.document? TreeStore.firstUri =
      some ⟨TreeStore.firstUri, some 1, "x = 1".toList⟩ := by
    rw [document?_eq, hplace, if_pos rfl]
    rfl
  have hsecond : s.document? TreeStore.secondUri = none := by
    rw [document?_eq, hplace, if_neg (by decide), ← document?_eq]
    exact (start_sound hstart).2.2 _
  refine ⟨s₀, s, hstart, hs, hfirst, fun refusal hr => ?_⟩
  have hrefuses := refuses_picky hfirst hsecond refusal hr
  exact Prod.ext ((hiff refusal.1 refusal.2).2 hrefuses) (hsame refusal.1 refusal.2 hrefuses).1

end ModuleLens
