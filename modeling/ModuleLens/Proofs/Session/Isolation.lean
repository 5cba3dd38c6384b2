import ModuleLens.Proofs.Linker.Builds
import ModuleLens.Proofs.Session.Editors

/-! No update is lost between documents.  However the steps of editors and workers are interleaved,
every editor finds at its location what its own calls have left there: the snapshots, the trees and
the verdicts are those of a session that it has to itself.  What others do shows in the modules
behind the imports only.  From wherever they are, all editors can come to the end of their calls. -/

namespace ModuleLens

open Node Session

namespace Session

variable {env : SessionEnv} {s s' solo : Session} {call : Call} {stage stage' : Stage} {p : Place}

/-- A place with the tree and the snapshot of another one. -/
structure Place.Agrees (p q : Place) : Prop where
  tree : p.tree = q.tree
  document : p.document? = q.document?
  drafted : p.Drafted

/-- What a call has come to at its location, against the session `solo` in which only this editor
has made calls. -/
def Stage.Follows (env : SessionEnv) (call : Call) (solo : Session) (p : Place) : Stage → Prop
  | begun => p.Agrees (solo.place call.uri)
  | edited old new =>
    p.Agrees (solo.place call.uri) ∧ solo.document? call.uri = some old ∧
      ∃ version changes, call = .change call.uri version changes ∧
        old.apply changes (some version) = .ok new
  | parsed old document tree =>
    solo.basis? env call = some (tree, document) ∧ ∀ d ∈ old, d.uri = document.uri
  | kept document tree | evicted document tree =>
    solo.basis? env call = some (tree, document) ∧
      p.tree = some ⟨document.version, document.text, tree⟩
  | building caller =>
    ∃ tree document, caller.Builds env.source tree document ∧
      solo.basis? env call = some (tree, document) ∧
      p.tree = some ⟨document.version, document.text, tree⟩
  | retired => call = .close call.uri ∧ p.tree = none ∧ p.document? = solo.document? call.uri
  | removed wasOpen =>
    call = .close call.uri ∧ wasOpen = (solo.close call.uri).1 ∧ p = ⟨none, none⟩
  | returned verdict =>
    verdict = solo.verdict env call ∧ p.Agrees ((solo.serve env call).2.place call.uri)

theorem Place.Agrees.failed (h : p.Agrees (solo.place call.uri)) {e : SessionError}
    (hserve : solo.serve env call = (some (.error e), solo)) :
    Stage.Follows env call solo p (.returned (.failed e)) := by
  refine ⟨(verdict_of_serve (congrArg Prod.fst hserve)).symm, ?_⟩
  rw [hserve]
  exact h

theorem contains_opened (s : Session) (uri : Uri) :
    s.opened.contains uri = (s.document? uri).isSome := by
  rw [document?, Option.isSome_map, Table.isSome_get?]

theorem InPlace.update_eq {uri : Uri} {old new : Document} {changes : List Change}
    (hin : solo.InPlace) (h : (s.place uri).Agrees (solo.place uri))
    (ho : solo.document? uri = some old) :
    (TreeStore.update env.engine s.trees old new changes).1 =
      (TreeStore.update env.engine solo.trees old new changes).1 := by
  have hold : old.uri = uri := hin.named uri old ho
  exact TreeStore.update_congr (hold ▸ h.tree)

theorem InPlace.follows_keep (hin : solo.InPlace) {tree : SyntaxTree} {document : Document}
    (hb : solo.basis? env call = some (tree, document)) (s : Session) :
    Stage.Follows env call solo
        (place { s with trees := TreeStore.keep s.trees document tree } call.uri)
        (.kept document tree) ∧
      ∀ u, u ≠ call.uri →
        place { s with trees := TreeStore.keep s.trees document tree } u = s.place u := by
  have hname : call.uri = document.uri := (uri_basis hin.named hb).symm
  refine ⟨⟨hb, ?_⟩, fun u hu => ?_⟩
  · rw [place_keep, if_pos hname]
  · rw [place_keep, if_neg (hname ▸ hu)]

/-- One step of a call goes on as in the session of its own editor, and leaves every other location
as it is. -/
theorem Turn.follows (hs : ∀ document, (env.source document).comesBack) (hin : solo.InPlace)
    (h : Turn env call s stage s' stage')
    (hf : stage.Follows env call solo (s.place call.uri)) :
    stage'.Follows env call solo (s'.place call.uri) ∧
      ∀ u, u ≠ call.uri → s'.place u = s.place u := by
  have hstay (u : Uri) (_ : u ≠ call.uri) : s.place u = s.place u := rfl
  cases h with
  | parse _ hp => exact ⟨⟨basis?_open hp, fun d hd => absurd hd (Option.not_mem_none d)⟩, hstay⟩
  | unparsed _ hp => exact ⟨hf.failed (serve_unparsed hp), hstay⟩
  | unknown version changes ho =>
    exact ⟨hf.failed (serve_unknown (hf.document.symm.trans ho)), hstay⟩
  | refuse ho ha =>
    exact ⟨hf.failed (serve_refused (hf.document.symm.trans ho) ha), hstay⟩
  | edit ho ha =>
    exact ⟨⟨hf, hf.document.symm.trans ho, _, _, rfl, ha⟩, hstay⟩
  | reparse hu =>
    obtain ⟨hagree, ho, _, _, hcall, ha⟩ := hf
    cases hcall
    rw [hin.update_eq hagree ho] at hu
    refine ⟨⟨basis?_change ho ha hu, fun d hd => ?_⟩, hstay⟩
    cases hd
    exact (uri_apply ha).symm
  | unreparsed hu =>
    obtain ⟨hagree, ho, _, _, hcall, ha⟩ := hf
    cases hcall
    rw [hin.update_eq hagree ho] at hu
    exact ⟨hagree.failed (serve_unreparsed ho ha hu), hstay⟩
  | keep _ _ document tree => exact hin.follows_keep hf.1 s
  | supersede _ _ old document tree =>
    -- an update goes to the place where the tree was, which is that of the call
    rw [TreeStore.supersede, if_pos (hf.2 old rfl)]
    exact hin.follows_keep hf.1 s
  | evict _ _ document tree => exact ⟨hf, hstay⟩
  | draft _ _ document tree => exact ⟨⟨tree, document, ⟨rfl, rfl⟩, hf⟩, hstay⟩
  | build _ hstep hd =>
    obtain ⟨tree, document, hbuilds, hkept⟩ := hf
    exact ⟨⟨tree, document, hstep.builds hs hd hbuilds, hkept⟩, hstay⟩
  | publish _ _ tree document module =>
    obtain ⟨_, _, ⟨rfl, rfl, number, answers, rfl⟩, hb, htree⟩ := hf
    have hname := (uri_basis hin.named hb).symm
    obtain ⟨_, _, hv, hplace⟩ := serve_done hs hb
    refine ⟨⟨hv.symm, ?_⟩, fun u hu => ?_⟩
    · rw [place_insert, if_pos hname, hplace, if_pos hname,
        show s.trees.get? call.uri = _ from htree]
      exact ⟨rfl, rfl, Place.drafted_published document tree number answers⟩
    · rw [place_insert, if_neg (hname ▸ hu)]
  | retire uri =>
    have hplace := (place_forget s uri uri).trans (if_pos rfl)
    refine ⟨⟨rfl, congrArg Place.tree hplace, ?_⟩, fun u hu => ?_⟩
    · exact (congrArg Place.document? hplace).trans hf.document
    · exact (place_forget s uri u).trans (if_neg hu)
  | remove uri =>
    obtain ⟨_, htree, hdoc⟩ := hf
    have hopen := congrArg Option.isSome hdoc
    have hplace := (place_erase s uri uri).trans (if_pos rfl)
    refine ⟨⟨rfl, ?_, ?_⟩, fun u hu => ?_⟩
    · exact (contains_opened s uri).trans (hopen.trans (contains_opened solo uri).symm)
    · exact hplace.trans (congrArg (Place.mk · none) htree)
    · exact (place_erase s uri u).trans (if_neg hu)
  | forget uri _ wasOpen =>
    obtain ⟨_, hwas, hplace⟩ := hf
    refine ⟨⟨congrArg Verdict.closed hwas, ?_⟩, hstay⟩
    change (s.place uri).Agrees ((solo.close uri).2.place uri)
    have hplace : s.place uri = ⟨none, none⟩ := hplace
    rw [hplace, place_close, if_pos rfl]
    exact ⟨rfl, rfl, Place.drafted_empty⟩

def Stage.rank : Stage → Nat × Caller
  | begun => (7, .unwound)
  | edited .. => (6, .unwound)
  | parsed .. => (5, .unwound)
  | kept .. => (4, .unwound)
  | evicted .. => (3, .unwound)
  | building caller => (2, caller)
  | retired => (2, .unwound)
  | removed _ => (1, .unwound)
  | returned _ => (0, .unwound)

def Stage.Further : Stage → Stage → Prop :=
  InvImage (Prod.Lex (· < ·) Caller.Further) rank

theorem Stage.further_wellFounded : WellFounded Stage.Further :=
  InvImage.wf _ (Prod.lex Nat.lt_wfRel ⟨_, Caller.further_wellFounded⟩).wf

theorem Stage.Follows.exists_turn (hf : stage.Follows env call solo p)
    (ho : ∀ verdict, stage ≠ .returned verdict) (s : Session) :
    ∃ s' stage', Turn env call s stage s' stage' ∧ Stage.Further stage' stage := by
  cases stage with
  | begun =>
    cases call with
    | openDocument uri version text =>
      cases hp : TreeStore.parseAlone env.engine ⟨uri, some version, text⟩ with
      | error e => exact ⟨_, _, .unparsed s hp, .left _ _ (by decide)⟩
      | ok tree => exact ⟨_, _, .parse s hp, .left _ _ (by decide)⟩
    | change uri version changes =>
      cases hd : s.document? uri with
      | none => exact ⟨_, _, .unknown version changes hd, .left _ _ (by decide)⟩
      | some old =>
        cases ha : old.apply changes (some version) with
        | error e => exact ⟨_, _, .refuse hd ha, .left _ _ (by decide)⟩
        | ok new => exact ⟨_, _, .edit hd ha, .left _ _ (by decide)⟩
    | close uri => exact ⟨_, _, .retire uri s, .left _ _ (by decide)⟩
  | edited old new =>
    obtain ⟨_, _, version, changes, hcall, _⟩ := hf
    rw [hcall]
    cases hu : (TreeStore.update env.engine s.trees old new changes).1 with
    | error e => exact ⟨_, _, .unreparsed hu, .left _ _ (by decide)⟩
    | ok parsed => exact ⟨_, _, .reparse hu, .left _ _ (by decide)⟩
  | parsed old document tree =>
    cases old with
    | none => exact ⟨_, _, .keep call s document tree, .left _ _ (by decide)⟩
    | some old => exact ⟨_, _, .supersede call s old document tree, .left _ _ (by decide)⟩
  | kept document tree => exact ⟨_, _, .evict call s document tree, .left _ _ (by decide)⟩
  | evicted document tree => exact ⟨_, _, .draft call s document tree, .left _ _ (by decide)⟩
  | building caller =>
    obtain ⟨tree, document, hbuilds, _⟩ := hf
    cases hover : caller.isOver with
    | true =>
      cases caller with
      | built tree document module =>
        exact ⟨_, _, .publish call s tree document module, .left _ _ (by decide)⟩
      | failed | resolved | unwound => exact hbuilds.elim
      | _ => cases hover
    | false =>
      have hbuilds : caller.Builds (s.importEnv env).source tree document := hbuilds
      obtain ⟨deed, caller', linker, hstep, hd, hfurther⟩ := hbuilds.exists_step hover s.linker
      exact ⟨_, _, .build call hstep hd, .right _ hfurther⟩
  | retired =>
    rw [hf.1]
    exact ⟨_, _, .remove call.uri s, .left _ _ (by decide)⟩
  | removed wasOpen =>
    rw [hf.1]
    exact ⟨_, _, .forget call.uri s wasOpen, .left _ _ (by decide)⟩
  | returned verdict => exact absurd rfl (ho verdict)

theorem after_append (env : SessionEnv) (s : Session) (calls : List Call) (call : Call) :
    s.after env (calls ++ [call]) = ((s.after env calls).serve env call).2 := by
  rw [after, List.foldl_append]
  rfl

theorem verdicts_append (env : SessionEnv) (s : Session) (calls : List Call) (call : Call) :
    s.verdicts env (calls ++ [call]) =
      s.verdicts env calls ++ [(s.after env calls).verdict env call] := by
  induction calls generalizing s with
  | nil => rfl
  | cons first calls ih => exact congrArg (s.verdict env first :: ·) (ih (s.serve env first).2)

theorem lost_not_mem_verdicts (hs : ∀ document, (env.source document).comesBack) (s : Session)
    (calls : List Call) : Verdict.lost ∉ s.verdicts env calls := by
  induction calls generalizing s with
  | nil => exact List.not_mem_nil
  | cons call calls ih =>
    refine List.not_mem_cons_of_ne_of_not_mem (fun hlost => ?_) (ih _)
    have hback := serve_returns hs s call
    cases hr : (s.serve env call).1 with
    | none =>
      cases call with
      | close uri => cases hlost
      | _ => cases hr
    | some result =>
      rw [verdict_of_serve hr] at hlost
      rw [hr] at hback
      match result, hlost, hback with
      | .ok (.done _), hlost, _ => cases hlost
      | .error _, hlost, _ => cases hlost

end Session

/-- An editor whose calls have come to what they come to in a session `fresh` that it has to itself,
with the call that is going on in step with that session. -/
structure Editor.Follows (env : SessionEnv) (fresh : Session) (uri : Uri) (script : List Call)
    (p : Place) (e : Editor) : Prop where
  script : e.made ++ e.calls = script
  verdicts : e.verdicts = fresh.verdicts env e.made
  resting : e.calls = [] → e.stage = .begun ∧ p.Agrees ((fresh.after env e.made).place uri)
  going : ∀ {call calls}, e.calls = call :: calls →
    e.stage.Follows env call (fresh.after env e.made) p

namespace SharedSession

variable {env : SessionEnv} {fresh : Session} {scripts : Uri → List Call} {t t' : SharedSession}

def Follows (env : SessionEnv) (fresh : Session) (scripts : Uri → List Call) (t : SharedSession) :
    Prop :=
  ∀ uri, (t.editors uri).Follows env fresh uri (scripts uri) (t.session.place uri)

theorem follows_ofScripts (hin : fresh.InPlace)
    (huri : ∀ uri, ∀ call ∈ scripts uri, call.uri = uri) :
    (ofScripts fresh scripts).Follows env fresh scripts := by
  have hagrees (uri : Uri) : (fresh.place uri).Agrees (fresh.place uri) :=
    ⟨rfl, rfl, hin.drafted uri⟩
  intro uri
  refine ⟨List.nil_append _, rfl, fun _ => ⟨rfl, hagrees uri⟩, fun {call calls} hc => ?_⟩
  have hc : scripts uri = call :: calls := hc
  rw [← huri uri call (hc ▸ List.mem_cons_self)]
  exact hagrees call.uri

theorem exists_turn {s : Session} {stage : Stage} {uri : Uri} {call : Call} {calls : List Call}
    (hc : (t.editors uri).calls = call :: calls)
    (h : Turn env call t.session (t.editors uri).stage s stage) :
    ∃ t', Step env t t' ∧ t'.session = s ∧ t'.editors uri = { t.editors uri with stage } ∧
      ∀ u, u ≠ uri → t'.editors u = t.editors u :=
  ⟨_, .turn t uri hc h, rfl, Function.update_self .., fun _ hu => Function.update_of_ne hu ..⟩

theorem exists_back {verdict : Verdict} {uri : Uri} {call : Call} {calls : List Call}
    (hc : (t.editors uri).calls = call :: calls) (hv : (t.editors uri).stage = .returned verdict) :
    ∃ t', Step env t t' ∧ t'.session = t.session ∧
      t'.editors uri =
        { calls
          made := (t.editors uri).made ++ [call]
          verdicts := (t.editors uri).verdicts ++ [verdict] } ∧
      ∀ u, u ≠ uri → t'.editors u = t.editors u :=
  ⟨_, .back t uri hc hv, rfl, Function.update_self .., fun _ hu => Function.update_of_ne hu ..⟩

section Run

variable (hs : ∀ document, (env.source document).comesBack) (hin : fresh.InPlace)
  (huri : ∀ uri, ∀ call ∈ scripts uri, call.uri = uri)

include hs hin huri

theorem Step.follows (h : Step env t t') (hf : t.Follows env fresh scripts) :
    t'.Follows env fresh scripts := by
  have hown {uri : Uri} {call : Call} {calls : List Call}
      (hc : (t.editors uri).calls = call :: calls) : ∀ c ∈ call :: calls, c.uri = uri := by
    intro c hm
    refine huri uri c ?_
    rw [← (hf uri).script, hc]
    exact List.mem_append_right _ hm
  cases h with
  | @turn s stage call calls _ uri hc hturn =>
    obtain rfl := hown hc call List.mem_cons_self
    obtain ⟨hnext, hothers⟩ := hturn.follows hs (hin.after hs _) ((hf call.uri).going hc)
    intro u
    by_cases hu : u = call.uri
    · subst hu
      simp only [Function.update_self]
      refine ⟨(hf call.uri).script, (hf call.uri).verdicts, fun hnil => ?_, fun hc' => ?_⟩
      · cases hc.symm.trans hnil
      · cases hc.symm.trans hc'
        exact hnext
    · -- another editor: neither it nor what stands at its location has changed
      simp only [Function.update_of_ne hu]
      rw [hothers u hu]
      exact hf u
  | @back verdict call calls _ uri hc hv =>
    obtain rfl := hown hc call List.mem_cons_self
    have hover := (hf call.uri).going hc
    rw [hv] at hover
    intro u
    by_cases hu : u = call.uri
    · subst hu
      simp only [Function.update_self]
      refine ⟨?_, ?_, fun _ => ⟨rfl, ?_⟩, fun {call' calls'} hc' => ?_⟩
      · rw [List.append_assoc, List.singleton_append, ← hc]
        exact (hf call.uri).script
      · rw [verdicts_append, (hf call.uri).verdicts, hover.1]
      · rw [after_append]
        exact hover.2
      · cases hc'
        have hsame : call'.uri = call.uri :=
          hown hc call' (List.mem_cons_of_mem _ List.mem_cons_self)
        change Place.Agrees _ _
        rw [after_append, hsame]
        exact hover.2
    · simp only [Function.update_of_ne hu]
      exact hf u
  | work h hd => exact hf

theorem Reachable.follows (h : Reachable env t t') (hf : t.Follows env fresh scripts) :
    t'.Follows env fresh scripts := by
  induction h with
  | refl => exact hf
  | tail _ hstep ih => exact Step.follows hs hin huri hstep ih

/-- The call that an editor is at can come back while the other editors rest. -/
theorem Follows.exists_back (hf : t.Follows env fresh scripts) {uri : Uri} {call : Call}
    {calls : List Call} (hc : (t.editors uri).calls = call :: calls) :
    ∃ t', Reachable env t t' ∧ (t'.editors uri).calls = calls ∧
      ∀ u, u ≠ uri → t'.editors u = t.editors u := by
  -- on what is left of the call: of its stages, and in the stage of building, of the build
  induction hstage : (t.editors uri).stage using Stage.further_wellFounded.induction
    generalizing t with
  | h stage ih =>
    by_cases hover : ∃ verdict, stage = .returned verdict
    · obtain ⟨verdict, rfl⟩ := hover
      obtain ⟨t', hstep, _, hself, hothers⟩ := SharedSession.exists_back hc hstage
      exact ⟨t', .single hstep, congrArg Editor.calls hself, hothers⟩
    · have hgoing := (hf uri).going hc
      rw [hstage] at hgoing
      obtain ⟨s', stage', hturn, hfurther⟩ :=
        hgoing.exists_turn (fun verdict hv => hover ⟨verdict, hv⟩) t.session
      obtain ⟨t₁, hstep, _, hself, hothers⟩ := exists_turn hc (hstage.symm ▸ hturn)
      obtain ⟨t', hrun, hcalls, hothers'⟩ := ih stage' hfurther
        (Step.follows hs hin huri hstep hf) ((congrArg Editor.calls hself).trans hc)
        (congrArg Editor.stage hself)
      exact ⟨t', .head hstep hrun, hcalls, fun u hu => (hothers' u hu).trans (hothers u hu)⟩

theorem Follows.exists_rest (hf : t.Follows env fresh scripts) (uri : Uri) :
    ∃ t', Reachable env t t' ∧ (t'.editors uri).calls = [] ∧
      ∀ u, u ≠ uri → t'.editors u = t.editors u := by
  induction hc : (t.editors uri).calls generalizing t with
  | nil => exact ⟨t, .refl, hc, fun _ _ => rfl⟩
  | cons call calls ih =>
    obtain ⟨t₁, hrun, hcalls, hothers⟩ := hf.exists_back hs hin huri hc
    obtain ⟨t₂, hrun', hcalls', hothers'⟩ := ih (Reachable.follows hs hin huri hrun hf) hcalls
    exact ⟨t₂, hrun.trans hrun', hcalls', fun u hu => (hothers' u hu).trans (hothers u hu)⟩

theorem Follows.completes (hf : t.Follows env fresh scripts) (uris : List Uri)
    (hrest : ∀ uri, uri ∉ uris → (t.editors uri).calls = []) :
    ∃ t', Reachable env t t' ∧ ∀ uri, (t'.editors uri).calls = [] := by
  induction uris generalizing t with
  | nil => exact ⟨t, .refl, fun uri => hrest uri List.not_mem_nil⟩
  | cons uri uris ih =>
    obtain ⟨t₁, hrun, hcalls, hothers⟩ := hf.exists_rest hs hin huri uri
    have hrest₁ (u : Uri) (hu : u ∉ uris) : (t₁.editors u).calls = [] := by
      by_cases hself : u = uri
      · rw [hself, hcalls]
      · rw [hothers u hself]
        exact hrest u (List.not_mem_cons_of_ne_of_not_mem hself hu)
    obtain ⟨t₂, hrun', hend⟩ := ih (Reachable.follows hs hin huri hrun hf) hrest₁
    exact ⟨t₂, hrun.trans hrun', hend⟩

end Run

end SharedSession

/-- Two sessions with one tree and one snapshot at a location, and modules drafted from these; they
may differ in what the imports have come to. -/
structure Session.SameAt (s t : Session) (uri : Uri) : Prop where
  tree : s.trees.get? uri = t.trees.get? uri
  document : s.document? uri = t.document? uri
  module : ∀ {m m'}, s.module? uri = some m → t.module? uri = some m' →
    ∃ stored document, s.trees.get? uri = some stored ∧ s.document? uri = some document ∧
      (∃ number answers, m = (draftModule number stored.tree document 0).link answers) ∧
      ∃ number answers, m' = (draftModule number stored.tree document 0).link answers

theorem Session.Place.Drafted.module {s : Session} {uri : Uri} (h : (s.place uri).Drafted)
    {m : Node} (hm : s.module? uri = some m) :
    ∃ stored document, s.trees.get? uri = some stored ∧ s.document? uri = some document ∧
      ∃ number answers, m = (draftModule number stored.tree document 0).link answers := by
  obtain ⟨tracked, ht, rfl⟩ := Option.map_eq_some_iff.1 hm
  obtain ⟨stored, number, answers, hs, hdraft⟩ := h tracked ht
  exact ⟨stored, tracked.document, hs, congrArg (Option.map Tracked.document) ht, number, answers,
    hdraft⟩

theorem Session.Place.Agrees.sameAt {s t : Session} {uri : Uri}
    (h : (s.place uri).Agrees (t.place uri)) (ht : t.InPlace) : s.SameAt t uri := by
  refine ⟨h.tree, h.document, fun {m m'} hm hm' => ?_⟩
  obtain ⟨stored, document, htree, hdoc, hdraft⟩ := h.drafted.module hm
  obtain ⟨stored', document', htree', hdoc', hdraft'⟩ := (ht.drafted uri).module hm'
  have hstored : stored = stored' := by
    have hh := htree.symm.trans (h.tree.trans htree')
    exact Option.some.inj hh
  have hdocument : document = document' := by
    have hh := hdoc.symm.trans (h.document.trans hdoc')
    exact Option.some.inj hh
  subst hstored hdocument
  exact ⟨stored, document, htree, hdoc, hdraft, hdraft'⟩

/-- Editors that share a session do not lose updates of each other.  If the module source comes
back, then after any interleaving the calls that an editor has made have ended as in a session that
it has to itself, and between its calls its location holds the tree and the snapshot of that session.
Finitely many editors can always come to the end of their calls. -/
theorem editors_isolated {env : SessionEnv} {fresh : Session}
    (hstart : Session.start env = .ok fresh)
    (hs : ∀ document, (env.source document).comesBack) {scripts : Uri → List Call}
    (huri : ∀ uri, ∀ call ∈ scripts uri, call.uri = uri) {t : SharedSession}
    (hr : SharedSession.Reachable env (.ofScripts fresh scripts) t) :
    (∀ uri, (t.editors uri).made ++ (t.editors uri).calls = scripts uri ∧
      (t.editors uri).verdicts = fresh.verdicts env (t.editors uri).made ∧
      Verdict.lost ∉ (t.editors uri).verdicts ∧
      ((t.editors uri).stage = .begun →
        t.session.SameAt (fresh.after env (t.editors uri).made) uri)) ∧
    ((∀ uri, (t.editors uri).calls = []) → ∀ uri,
      (t.editors uri).verdicts = fresh.verdicts env (scripts uri) ∧
      t.session.SameAt (fresh.after env (scripts uri)) uri) ∧
    ∀ uris : List Uri, (∀ uri, uri ∉ uris → scripts uri = []) →
      ∃ t', SharedSession.Reachable env t t' ∧ ∀ uri, (t'.editors uri).calls = [] := by
  have hin := start_inPlace hstart
  have hf := SharedSession.Reachable.follows hs hin huri hr
    (SharedSession.follows_ofScripts hin huri)
  refine ⟨fun uri => ⟨(hf uri).script, (hf uri).verdicts, ?_, fun hbegun => ?_⟩,
    fun hend uri => ?_, fun uris hscripts => ?_⟩
  · rw [(hf uri).verdicts]
    exact lost_not_mem_verdicts hs fresh _
  · refine Place.Agrees.sameAt ?_ (hin.after hs _)
    cases hc : (t.editors uri).calls with
    | nil => exact ((hf uri).resting hc).2
    | cons call calls =>
      have hgoing := (hf uri).going hc
      rw [hbegun] at hgoing
      have hcall : call ∈ scripts uri := by
        rw [← (hf uri).script, hc]
        exact List.mem_append_right _ List.mem_cons_self
      obtain rfl := huri uri call hcall
      exact hgoing
  · have hmade : (t.editors uri).made = scripts uri := by
      rw [← (hf uri).script, hend uri, List.append_nil]
    rw [← hmade]
    exact ⟨(hf uri).verdicts, ((hf uri).resting (hend uri)).2.sameAt (hin.after hs _)⟩
  · refine hf.completes hs hin huri uris fun uri hu => ?_
    have hnone := (hf uri).script
    rw [hscripts uri hu] at hnone
    exact (List.append_eq_nil_iff.1 hnone).2

def leftUri : Uri := ⟨"file:///left.pkl".toList, by decide⟩

def rightUri : Uri := ⟨"file:///right.pkl".toList, by decide⟩

def leftOpened : Document := ⟨leftUri, some 1, "import \"right.pkl\"\n".toList⟩

def leftTree : SyntaxTree := Outline.parseStrict leftOpened.text

def leftScript : List Call :=
  [.openDocument leftUri 1 leftOpened.text,
    .change leftUri 2 [⟨some ⟨⟨0, 8⟩, ⟨0, 13⟩⟩, "other".toList⟩]]

def rightText : Text := "x = 1\n".toList

def rightScript : List Call :=
  [.change rightUri 1 [], .openDocument rightUri 1 rightText, .close rightUri]

/-- One editor opens a document that imports the document of the other and changes the import; the
other editor is refused a change, opens its document and closes it. -/
def bothScripts (uri : Uri) : List Call :=
  if uri = leftUri then leftScript else if uri = rightUri then rightScript else []

theorem reachable_both {fresh : Session} (hfresh : fresh.document? rightUri = none) :
    ∃ t, SharedSession.Reachable (.ofFiles {}) (.ofScripts fresh bothScripts) t ∧
      (t.editors leftUri).stage = .kept leftOpened leftTree ∧
      (t.editors rightUri).verdicts = [.failed (.unknownDocument rightUri)] := by
  have hne : rightUri ≠ leftUri := by decide
  let t₀ := SharedSession.ofScripts fresh bothScripts
  have hleft : t₀.editors leftUri = { calls := leftScript } := rfl
  have hright : t₀.editors rightUri = { calls := rightScript } := rfl
  have hparse : Turn (.ofFiles {}) (.openDocument leftUri 1 leftOpened.text) t₀.session
      (t₀.editors leftUri).stage fresh (.parsed none leftOpened leftTree) := .parse fresh rfl
  obtain ⟨t₁, h₁, hsession, hleft₁, hothers⟩ :=
    SharedSession.exists_turn (congrArg Editor.calls hleft) hparse
  rw [hleft] at hleft₁
  rw [← hothers rightUri hne] at hright
  have hunknown : Turn (.ofFiles {}) (.change rightUri 1 []) t₁.session
      (t₁.editors rightUri).stage fresh (.returned (.failed (.unknownDocument rightUri))) := by
    rw [hsession, hright]
    exact .unknown 1 [] hfresh
  obtain ⟨t₂, h₂, _, hright₂, hothers⟩ :=
    SharedSession.exists_turn (congrArg Editor.calls hright) hunknown
  rw [hright] at hright₂
  rw [← hothers leftUri hne.symm] at hleft₁
  have hkeep : Turn (.ofFiles {}) (.openDocument leftUri 1 leftOpened.text) t₂.session
      (t₂.editors leftUri).stage
      { t₂.session with trees := TreeStore.keep t₂.session.trees leftOpened leftTree }
      (.kept leftOpened leftTree) := by
    rw [hleft₁]
    exact .keep _ t₂.session leftOpened leftTree
  obtain ⟨t₃, h₃, _, hleft₃, hothers⟩ :=
    SharedSession.exists_turn (congrArg Editor.calls hleft₁) hkeep
  rw [← hothers rightUri hne] at hright₂
  obtain ⟨t₄, h₄, _, hright₄, hothers⟩ :=
    SharedSession.exists_back (congrArg Editor.calls hright₂) (congrArg Editor.stage hright₂)
  refine ⟨t₄, .tail (.tail (.tail (.single h₁) h₂) h₃) h₄, ?_, ?_⟩
  · rw [hothers leftUri hne.symm, hleft₃]
  · rw [hright₄, hright₂]
    rfl

theorem verdicts_right {fresh : Session} (hfresh : fresh.document? rightUri = none) :
    fresh.verdicts (.ofFiles {}) rightScript =
      [.failed (.unknownDocument rightUri), .done, .closed true] := by
  have hs : ∀ document, ((SessionEnv.ofFiles {}).source document).comesBack := fun _ => rfl
  have hrefused : fresh.serve (.ofFiles {}) (.change rightUri 1 []) =
      (some (.error (.unknownDocument rightUri)), fresh) := serve_unknown hfresh
  obtain ⟨number, answers, hdone, hplace⟩ :=
    serve_done hs (basis?_ofFiles {} fresh rightUri 1 rightText)
  have hopen : ((fresh.serve (.ofFiles {}) (.openDocument rightUri 1 rightText)).2.close
      rightUri).1 = true := by
    rw [close, contains_opened, document?_eq, hplace, if_pos rfl, Place.published]
    rfl
  have hfailed := verdict_of_serve (congrArg Prod.fst hrefused)
  rw [rightScript, verdicts, hfailed, hrefused, verdicts, hdone, verdicts, verdicts, verdict, hopen,
    Verdict.ofResult]

theorem editors_isolated_both :
    ∃ fresh t t', Session.start (.ofFiles {}) = .ok fresh ∧
      (∀ document, ((SessionEnv.ofFiles {}).source document).comesBack) ∧
      (∀ uri, ∀ call ∈ bothScripts uri, call.uri = uri) ∧
      SharedSession.Reachable (.ofFiles {}) (.ofScripts fresh bothScripts) t ∧
      (t.editors leftUri).stage = .kept leftOpened leftTree ∧
      (t.editors rightUri).verdicts = [.failed (.unknownDocument rightUri)] ∧
      SharedSession.Reachable (.ofFiles {}) t t' ∧
      t'.session.document? leftUri =
        some ⟨leftUri, some 2, "import \"other.pkl\"\n".toList⟩ ∧
      t'.session.document? rightUri = none ∧
      (t'.editors rightUri).verdicts =
        [.failed (.unknownDocument rightUri), .done, .closed true] := by
  have hs : ∀ document, ((SessionEnv.ofFiles {}).source document).comesBack := fun _ => rfl
  have he : (SessionEnv.ofFiles {}).engine.Total := ⟨fun _ => rfl, fun _ _ _ => rfl⟩
  have huri : ∀ uri, ∀ call ∈ bothScripts uri, call.uri = uri := by
    intro uri call hc
    rw [bothScripts] at hc
    split at hc
    · next hu =>
      subst hu
      revert call
      decide
    · split at hc
      · next hu =>
        subst hu
        revert call
        decide
      · cases hc
  have hstart := start_ofFiles {}
  have hnone := (start_sound hstart).2.2 rightUri
  obtain ⟨t, hr, hleft, hright⟩ := reachable_both hnone
  obtain ⟨t', hr', hend⟩ := (editors_isolated hstart hs huri hr).2.2 [leftUri, rightUri] (by
    intro uri hu
    simp only [List.mem_cons, List.not_mem_nil, or_false, not_or] at hu
    rw [bothScripts, if_neg hu.1, if_neg hu.2])
  have hfinal := (editors_isolated hstart hs huri (hr.trans hr')).2.1 hend
  have halone (calls : List Call) :=
    (start_tracks hstart).after he (returned_of_source hs _ calls)
  refine ⟨_, t, t', hstart, hs, huri, hr, hleft, hright, hr', ?_, ?_, ?_⟩
  · rw [(hfinal leftUri).2.document, (halone _).documents]
    decide +kernel
  · rw [(hfinal rightUri).2.document, (halone _).documents]
    decide +kernel
  · exact (hfinal rightUri).1.trans (verdicts_right hnone)

end ModuleLens
