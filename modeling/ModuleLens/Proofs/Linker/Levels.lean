import ModuleLens.Proofs.Linker.Confluence
import ModuleLens.Proofs.Linker.Holding
import ModuleLens.Proofs.Node.Diagnostics
import ModuleLens.Proofs.Node.Levels

/-! Every module is built on its level.  Whatever the catalog and the module source answer from step
to step, whichever waits take too long, threads are thrown out or documents are forgotten: a slot
holds a module of the depth that it is claimed for, with the modules behind its imports one deeper
each, down to the depth limit.  If the limit is zero, nothing is ever looked up. -/

namespace ModuleLens

open Node

namespace Product

def Levelled (limit depth : Nat) : Product → Prop
  | module n => n.depth = depth ∧ n.Levelled limit
  | failed => True

theorem Levelled.outcome {limit depth : Nat} {late : Prop} {p : Product}
    (h : p.Levelled limit (depth + 1)) (hd : depth < limit) : p.outcome.Fit limit depth late := by
  cases p with
  | module n => exact h
  | failed => exact hd

end Product

namespace Errand

variable {α β : Type} {limit depth : Nat}

/-- An errand that comes to a result with `Q`, if to any, and fills slots with products of their
depths, whatever is looked up and read and whatever such products it finds. -/
def Levels (limit : Nat) (Q : α → Prop) : Errand α → Prop
  | finished (some a) => Q a
  | finished none => True
  | hung => True
  | load _ _ next => ∀ d, Levels limit Q (next d)
  | call _ _ next => ∀ reading build, Levels limit Q (next reading build)
  | claim k next =>
    (∀ p, p.Levelled limit k.depth → Levels limit Q (next (.found p))) ∧
      Levels limit Q (next .granted) ∧ Levels limit Q (next .expired)
  | publish k p next => p.Levelled limit k.depth ∧ Levels limit Q next
  | abandon _ next => Levels limit Q next

theorem Levels.bind {P : α → Prop} {Q : β → Prop} {k : Option α → Errand β} {e : Errand α}
    (h : e.Levels limit P) (hnone : (k none).Levels limit Q)
    (hsome : ∀ a, P a → (k (some a)).Levels limit Q) : (e.bind k).Levels limit Q := by
  induction e with
  | finished result =>
    cases result with
    | none => exact hnone
    | some a => exact hsome a h
  | hung => trivial
  | load importing path next ih => exact fun d => ih d (h d)
  | call document depth next ih => exact fun reading build => ih reading build (h reading build)
  | claim k next ih => exact ⟨fun p hp => ih _ (h.1 p hp), ih _ h.2.1, ih _ h.2.2⟩
  | publish k p next ih => exact ⟨h.1, ih h.2⟩
  | abandon k next ih => exact ih h

theorem levels_answerAll {answer : ImportEdge → Errand (Outcome Node)}
    (h : ∀ edge, (answer edge).Levels limit fun o => o.Fit limit depth False) (rs : List Request)
    {done : List Request} {a : Answers} (ha : Answers.Fit limit depth False done a) :
    (answerAll answer a rs).Levels limit (Answers.Fit limit depth False (done ++ rs)) := by
  induction rs generalizing done a with
  | nil =>
    rw [List.append_nil]
    exact ha
  | cons r rs ih =>
    refine (h r.edge).bind trivial fun o ho => ?_
    have hh := ih (ha.insert r ho)
    rwa [List.append_assoc] at hh

theorem levels_make {answer : ImportEdge → Errand (Outcome Node)}
    (h : ∀ edge, (answer edge).Levels limit fun o => o.Fit limit depth False) (hd : depth ≤ limit)
    (document : Document) (reading : Reading) (build : Nat) :
    (make answer document depth reading build).Levels limit (Product.Levelled limit depth) := by
  cases reading with
  | tree tree =>
    refine (levels_answerAll h _ (Answers.fit_empty limit depth False)).bind trivial fun a ha => ?_
    exact ⟨(onLevel_link hd ha).1, levelled_link hd ha⟩
  | _ => trivial

theorem levels_followAt (levels : Nat) (importing : Document) (depth : Nat) (edge : ImportEdge)
    (hl : levels = limit - depth) :
    (followAt limit levels importing depth edge).Levels limit fun o => o.Fit limit depth False := by
  induction levels generalizing importing depth edge with
  | zero => rfl
  | succ levels ih =>
    -- A level is left, so an answer other than the report of the limit fits as well.
    have hlt : depth < limit := by omega
    intro d
    cases d with
    | error e => exact hlt
    | ok document =>
      refine ⟨fun p hp => hp.outcome hlt, fun reading build => ?_, .inl hlt⟩
      have hm := levels_make (fun edge => ih document (depth + 1) edge (by omega)) hlt document
        reading build
      exact hm.bind trivial fun p hp => ⟨hp, hp.outcome hlt⟩

def isOver : Errand α → Bool
  | finished _ => true
  | _ => false

/-- An errand on behalf of a document at a depth: what comes of it fits there, and if no import may
be followed it is over from the beginning. -/
structure Fit (limit depth : Nat) (e : Errand (Outcome Node)) : Prop where
  levels : e.Levels limit fun o => o.Fit limit depth False
  ended : limit = 0 → e.isOver

theorem fit_follow (limit : Nat) (importing : Document) (depth : Nat) (edge : ImportEdge) :
    (follow limit importing depth edge).Fit limit depth := by
  refine ⟨levels_followAt _ importing depth edge rfl, fun hl => ?_⟩
  subst hl
  rw [follow, Nat.zero_sub]
  rfl

theorem fit_dismissed (limit depth : Nat) {e : Errand (Outcome Node)} (h : limit = 0 → e.isOver) :
    e.dismissed.Fit limit depth := by
  refine ⟨?_, fun hl => ?_⟩
  · rw [dismissed]
    induction e.held with
    | nil => trivial
    | cons k held ih => exact ih
  · have hover := h hl
    cases e with
    | finished result => rfl
    | _ => cases hover

end Errand

structure Linker.Levelled (limit : Nat) (l : Linker) : Prop where
  distinct : Table.Distinct l.modules
  slots : ∀ {k p}, l.modules.get? k = some (.ready p) → p.Levelled limit k.depth

theorem Linker.Levelled.forget {limit : Nat} {l : Linker} (h : l.Levelled limit) (uri : Uri) :
    (l.forget uri).Levelled limit :=
  ⟨h.distinct.filter _, fun hk => h.slots ((SharedStore.get?_prune_eq_ready h.distinct).1 hk).1⟩

namespace Errand

variable {α : Type} {env : ImportEnv} {limit depth : Nat} {deed : Deed} {l l' : Linker}

theorem Step.levels {e e' : Errand α} (h : Step env deed e l e' l') {Q : α → Prop}
    (he : e.Levels limit Q) (hl : l.Levelled limit) :
    e'.Levels limit Q ∧ l'.Levelled limit := by
  cases h with
  | load importing path next => exact ⟨he _, hl⟩
  | call document depth next => exact ⟨he _ _, hl.distinct, hl.slots⟩
  | unwind document depth next => exact ⟨he _ _, hl.distinct, hl.slots⟩
  | found next h => exact ⟨he.1 _ (hl.slots h), hl⟩
  | @granted k _ next h =>
    refine ⟨he.2.1, hl.distinct.insert k _, fun {j p} hj => hl.slots (k := j) ?_⟩
    by_cases hjk : j = k
    · simp [Table.get?_insert, hjk] at hj
    · simpa [Table.get?_insert, hjk] using hj
  | expire next h => exact ⟨he.2.2, hl⟩
  | publish k p next =>
    refine ⟨he.2, hl.distinct.insert k _, fun {j q} hj => ?_⟩
    by_cases hjk : j = k
    · subst hjk
      have hpq : p = q := by simpa [SharedStore.get?_publish] using hj
      exact hpq ▸ he.1
    · exact hl.slots (by simpa [SharedStore.get?_publish, hjk] using hj)
  | abandon k next =>
    refine ⟨he, hl.distinct.erase k, fun {j p} hj => hl.slots (k := j) ?_⟩
    by_cases hjk : j = k
    · simp [SharedStore.get?_abandon, hjk] at hj
    · simpa [SharedStore.get?_abandon, hjk] using hj

theorem Step.not_over {e e' : Errand α} (h : Step env deed e l e' l') : e.isOver = false := by
  cases h <;> rfl

theorem Step.fit {e e' : Errand (Outcome Node)} (h : Step env deed e l e' l')
    (he : e.Fit limit depth) (hl : l.Levelled limit) :
    0 < limit ∧ e'.Fit limit depth ∧ l'.Levelled limit := by
  have hpos : limit ≠ 0 := by
    intro hz
    have hover := he.ended hz
    rw [h.not_over] at hover
    cases hover
  obtain ⟨he', hl'⟩ := h.levels he.levels hl
  exact ⟨Nat.pos_of_ne_zero hpos, ⟨he', fun hz => absurd hz hpos⟩, hl'⟩

end Errand

/-- A job of an entry document.  Its reply can only get lost if imports are followed at all. -/
structure Job.Fit (limit : Nat) (job : Job) : Prop where
  errand : job.errand.Fit limit 0
  lost : job.errand = .finished none → 0 < limit

theorem Job.fit_follow (limit ticket : Nat) (document : Document) (edge : ImportEdge) :
    Job.Fit limit ⟨ticket, .follow limit document 0 edge⟩ := by
  refine ⟨Errand.fit_follow limit document 0 edge, fun hnone => Nat.pos_of_ne_zero fun hz => ?_⟩
  subst hz
  cases hnone

/-- The answers that are collected fit the entry document, and only the requests that are left have
none. -/
def EntryBuild.Fit (limit : Nat) (late : Prop) (entry : EntryBuild) (left : List Request) : Prop :=
  ∃ done, entry.draft.requests = done ++ left ∧ Answers.Fit limit 0 late done entry.answers

theorem EntryBuild.Fit.answer {limit : Nat} {late : Prop} {entry : EntryBuild} {r : Request}
    {rs : List Request} (h : entry.Fit limit late (r :: rs)) {o : Outcome Node}
    (ho : o.Fit limit 0 late) (tickets : Linker.Tickets) :
    EntryBuild.Fit limit late
      { entry with tickets, answers := entry.answers.insert r.index o } rs := by
  obtain ⟨done, hd, ha⟩ := h
  exact ⟨done ++ [r], hd.trans (by simp), ha.insert r ho⟩

theorem Outcome.Fit.mono {limit depth : Nat} {late late' : Prop} {o : Outcome Node}
    (h : o.Fit limit depth late) (hl : late → late') : o.Fit limit depth late' := by
  cases o with
  | timedOut => exact h.imp_right hl
  | _ => exact h

namespace Caller

variable {env : ImportEnv} {limit : Nat} {late : Prop}

def Fit (limit : Nat) (late : Prop) : Caller → Prop
  | announcing entry _ _ => Answers.Fit limit 0 late [] entry.answers
  | collecting entry requests => entry.Fit limit late requests
  | following entry request requests errand =>
    entry.Fit limit late (request :: requests) ∧ errand.Fit limit 0
  | resolving _ depth _ errand => errand.Fit limit depth
  | built _ _ module =>
    module.depth = 0 ∧ module.OnLevel limit late ∧ ∀ t, Imports module t → t.Levelled limit
  | _ => True

theorem Begins.fit {a : Caller} (h : a.Begins env) (late : Prop) : a.Fit env.maxDepth late := by
  cases a with
  | reading document => trivial
  | announcing entry edges numbered =>
    obtain ⟨_, _, _, ha⟩ := h
    rw [Fit, ha]
    exact Answers.fit_empty env.maxDepth 0 late
  | resolving importing depth edge errand =>
    cases h
    exact Errand.fit_follow env.maxDepth importing depth edge
  | _ => exact h.elim

theorem Fit.dismissed {a : Caller} (h : a.Fit limit late) : a.dismissed.Fit limit late := by
  cases a with
  | following entry r rs errand => exact ⟨h.1, Errand.fit_dismissed limit 0 h.2.ended⟩
  | resolving importing depth edge errand => exact Errand.fit_dismissed limit depth h.ended
  | built tree document module => exact h
  | _ => trivial

theorem Step.fit (hm : env.maxDepth = limit) {deed : Deed} {a a' : Caller} {l l' : Linker}
    (h : Step env deed a l a' l') (hd : deed = .expired → late) (ha : a.Fit limit late)
    (hl : l.Levelled limit)
    (hr : ∀ {t : Nat} {r}, l.replies[t]? = some r → (r.getD .notFound).Fit limit 0 False) :
    a'.Fit limit late ∧ l'.Levelled limit := by
  have hstay {m : Linker} (hmod : m.modules = l.modules) : m.Levelled limit :=
    ⟨hmod ▸ hl.distinct, fun hk => hl.slots (hmod ▸ hk)⟩
  cases h with
  | read _ hs => exact ⟨Answers.fit_empty limit 0 late, hstay rfl⟩
  | announce entry edge edges numbered => exact ⟨ha, hstay rfl⟩
  | collect entry numbered => exact ⟨⟨[], rfl, ha⟩, hl⟩
  | wait rs _ ht => exact ⟨ha, hstay rfl⟩
  | reply rs ht ho => exact ⟨ha.answer ((hr ho).mono False.elim) _, hl⟩
  | lost rs ht ho => exact ⟨ha.answer ((hr ho).mono False.elim) _, hl⟩
  | giveUp rs ht ho =>
    -- The one answer that may not fit: with a limit of zero the reply would have told the limit.
    have hlate : Outcome.Fit limit 0 late .timedOut := .inr (hd rfl)
    exact ⟨ha.answer hlate _, hl⟩
  | @inline entry r rs _ ht =>
    subst hm
    exact ⟨⟨ha, Errand.fit_follow env.maxDepth entry.document 0 r.edge⟩, hl⟩
  | follow entry r rs h =>
    obtain ⟨_, he, hl'⟩ := h.fit ha.2 hl
    exact ⟨⟨ha.1, he⟩, hl'⟩
  | followed entry r rs outcome =>
    have ho : outcome.Fit limit 0 False := ha.2.levels
    exact ⟨ha.1.answer (ho.mono False.elim) entry.tickets, hl⟩
  | link entry =>
    obtain ⟨done, hreq, hans⟩ := ha
    rw [List.append_nil] at hreq
    exact ⟨onLevel_link (Nat.zero_le limit) (hreq ▸ hans), hl⟩
  | resolve importing depth edge h => exact (h.fit ha hl).2
  | readFailed _ hs => exact ⟨trivial, hstay rfl⟩
  | readUnwound document => exact ⟨trivial, hstay rfl⟩
  | _ => exact ⟨trivial, hl⟩

end Caller

namespace Crew

variable {env : ImportEnv} {limit : Nat} {late : Prop}

/-- What a crew comes to, with what was done on the way, the latest first, when the catalog and the
module source may answer otherwise at every step, documents are forgotten at any time, and threads
are thrown out in the middle of their work. -/
inductive Voyage (limit : Nat) (start : Crew) : List Deed → Crew → Prop where
  | refl : Voyage limit start [] start
  | step {env : ImportEnv} {deeds : List Deed} {c c' : Crew} {deed : Deed}
      (h : Voyage limit start deeds c) (hm : env.maxDepth = limit) (s : Step env deed c c') :
      Voyage limit start (deed :: deeds) c'
  | forget {deeds : List Deed} {c : Crew} (h : Voyage limit start deeds c) (uri : Uri) :
      Voyage limit start deeds { c with linker := c.linker.forget uri }
  | throwCaller {deeds : List Deed} {l : Linker} {active : List Job} {pre post : List Caller}
      {a : Caller} (h : Voyage limit start deeds ⟨l, active, pre ++ a :: post⟩) :
      Voyage limit start (.unwound :: deeds) ⟨l, active, pre ++ a.dismissed :: post⟩
  | throwWorker {deeds : List Deed} {l : Linker} {ticket : Nat} {e : Errand (Outcome Node)}
      {pre post : List Job} {callers : List Caller}
      (h : Voyage limit start deeds ⟨l, pre ++ ⟨ticket, e⟩ :: post, callers⟩)
      (he : e.isOver = false) :
      Voyage limit start (.unwound :: deeds) ⟨l, pre ++ ⟨ticket, e.dismissed⟩ :: post, callers⟩

theorem Run.voyage {start c : Crew} {deeds : List Deed} (h : Run env start deeds c) :
    Voyage env.maxDepth start deeds c := by
  induction h with
  | refl => exact .refl
  | tail _ s ih => exact .step ih rfl s

/-- The invariant of a crew: every slot, every job, every reply and every caller fits its level. -/
structure Levelled (limit : Nat) (late : Prop) (c : Crew) : Prop where
  slots : c.linker.Levelled limit
  queue : ∀ job ∈ c.linker.queue, job.Fit limit
  active : ∀ job ∈ c.active, job.Fit limit
  replies : ∀ {t : Nat} {r}, c.linker.replies[t]? = some r → (r.getD .notFound).Fit limit 0 False
  callers : ∀ a ∈ c.callers, a.Fit limit late

theorem levelled_begin (workers : Nat) {callers : List Caller} (hb : ∀ a ∈ callers, a.Begins env)
    (late : Prop) : Levelled env.maxDepth late ⟨.ofWorkers workers, [], callers⟩ := by
  refine ⟨⟨Table.distinct_empty, fun hk => (nomatch hk)⟩, fun job hj => absurd hj List.not_mem_nil,
    fun job hj => absurd hj List.not_mem_nil, fun ht => ?_, fun a ha => (hb a ha).fit late⟩
  simp [Linker.ofWorkers] at ht

theorem Step.levelled (hm : env.maxDepth = limit) {deed : Deed} {c c' : Crew}
    (h : Step env deed c c') (hd : deed = .expired → late) (hc : c.Levelled limit late) :
    c'.Levelled limit late := by
  have hqueue (job : Job) (hj : job ∈ c'.linker.queue) : job.Fit limit := by
    rcases h.queued job hj with hj | ⟨document, edge, he⟩
    · exact hc.queue job hj
    · obtain ⟨ticket, errand⟩ := job
      subst hm
      cases he
      exact Job.fit_follow env.maxDepth ticket document edge
  cases h with
  | @call _ a a' l l' active pre post h =>
    obtain ⟨ha, hl⟩ := h.fit hm hd (hc.callers a (by simp)) hc.slots hc.replies
    refine ⟨hl, hqueue, hc.active, fun {t r} ht => hc.replies (t := t) ?_,
      forall_mem_replace hc.callers ha⟩
    have hrep : l'.replies = l.replies := h.jobs.2.1
    exact hrep ▸ ht
  | @take l job rest active callers hi hq =>
    refine ⟨⟨hc.slots.distinct, hc.slots.slots⟩, hqueue, fun j hj => ?_, hc.replies, hc.callers⟩
    rcases List.mem_cons.1 hj with rfl | hj
    · exact hc.queue j (by simp [hq])
    · exact hc.active j hj
  | @work _ e e' l l' ticket pre post callers h =>
    have hj := hc.active ⟨ticket, e⟩ (by simp)
    obtain ⟨hpos, he, hl⟩ := h.fit hj.errand hc.slots
    refine ⟨hl, hqueue, forall_mem_replace hc.active ⟨he, fun _ => hpos⟩,
      fun {t r} ht => hc.replies (t := t) ?_, hc.callers⟩
    exact h.frame.2.1 ▸ ht
  | reply l ticket result pre post callers =>
    have hj := hc.active ⟨ticket, .finished result⟩ (by simp)
    have hresult : (result.getD .notFound).Fit limit 0 False := by
      cases result with
      | none => exact hj.lost rfl
      | some o => exact hj.errand.levels
    refine ⟨⟨hc.slots.distinct, hc.slots.slots⟩, hqueue, fun j hm => hc.active j (by grind),
      fun {t r} ht => ?_, hc.callers⟩
    by_cases hticket : ticket = t
    · have hr : result = r := by simpa [hticket] using ht
      exact hr ▸ hresult
    · exact hc.replies (by simpa [Std.TreeMap.getElem?_insert, hticket] using ht)

theorem Voyage.levelled {start c : Crew} {deeds : List Deed} (h : Voyage limit start deeds c)
    (hd : .expired ∈ deeds → late) (hc : start.Levelled limit late) : c.Levelled limit late := by
  induction h with
  | refl => exact hc
  | step _ hm s ih =>
    exact s.levelled hm (fun he => hd (he ▸ List.mem_cons_self))
      (ih fun hx => hd (List.mem_cons_of_mem _ hx))
  | forget _ uri ih =>
    have hh := ih hd
    exact ⟨hh.slots.forget uri, hh.queue, hh.active, hh.replies, hh.callers⟩
  | @throwCaller deeds l active pre post a _ ih =>
    have hh := ih fun hx => hd (List.mem_cons_of_mem _ hx)
    exact ⟨hh.slots, hh.queue, hh.active, hh.replies,
      forall_mem_replace hh.callers (hh.callers a (by simp)).dismissed⟩
  | @throwWorker deeds l ticket e pre post callers _ he ih =>
    have hh := ih fun hx => hd (List.mem_cons_of_mem _ hx)
    have hj := hh.active ⟨ticket, e⟩ (by simp)
    have hpos : limit ≠ 0 := by
      intro hz
      have hover := hj.errand.ended hz
      rw [he] at hover
      cases hover
    exact ⟨hh.slots, hh.queue,
      forall_mem_replace hh.active
        ⟨Errand.fit_dismissed limit 0 hj.errand.ended, fun _ => Nat.pos_of_ne_zero hpos⟩,
      hh.replies, hh.callers⟩

/-- A thread is about to ask the catalog for a module. -/
def LooksUp (c : Crew) : Prop := ∃ importing path next, .load importing path next ∈ c.errands

theorem Levelled.not_looksUp {c : Crew} (h : c.Levelled 0 late) : ¬ c.LooksUp := by
  rintro ⟨importing, path, next, hm⟩
  have hover : ∀ e ∈ c.errands, e.isOver := by
    intro e he
    rcases List.mem_append.1 he with he | he
    · obtain ⟨job, hj, rfl⟩ := List.mem_map.1 he
      exact (h.active job hj).errand.ended rfl
    · obtain ⟨a, ha, he⟩ := List.mem_filterMap.1 he
      have hfit := h.callers a ha
      cases a with
      | following entry r rs errand =>
        cases he
        exact hfit.2.ended rfl
      | resolving importing depth edge errand =>
        cases he
        exact hfit.ended rfl
      | _ => cases he
  cases hover _ hm

end Crew

namespace Node

theorem importFindings_of_stopped {clause : ImportClause} {edge : ImportEdge}
    (hc : clause.edge? = some edge) {outcome : Option (Outcome Node)} {limit : Nat}
    (ho : outcome = some (.tooDeep limit) ∨ outcome = some .timedOut) (below : List Diagnostic) :
    ∃ problem, importFindings clause outcome below = [.own problem] ∧
      notFoundNotice <+: problem.message.toList := by
  obtain ⟨kind, path, conflict⟩ := clause
  cases conflict with
  | true => simp [ImportClause.edge?] at hc
  | false =>
    cases path with
    | none => simp [ImportClause.edge?] at hc
    | some path =>
      rcases ho with rfl | rfl
      · exact ⟨.importTooDeep path limit, rfl, Problem.importTooDeep_message path limit⟩
      · exact ⟨.importTimedOut path, rfl, Problem.importTimedOut_message path⟩

theorem shallowDiagnostics_of_stopped {d : Node} {limit : Nat} (he : d.edge?.isSome)
    (ho : d.outcome = some (.tooDeep limit) ∨ d.outcome = some .timedOut) :
    ∃ diagnostic, d.shallowDiagnostics = [diagnostic] ∧
      notFoundNotice <+: diagnostic.message.toList := by
  obtain ⟨info, label, outcome, children⟩ := d
  obtain ⟨edge, hedge⟩ := Option.isSome_iff_exists.1 he
  obtain ⟨clause, hclause, hedge⟩ := Option.bind_eq_some_iff.1 hedge
  have hlabel : label = .importClause clause := by
    cases label <;> simp_all [clause?, Node.label]
  subst hlabel
  obtain ⟨problem, hp, hmessage⟩ :=
    importFindings_of_stopped hedge ho (outcomeDiagnostics outcome)
  refine ⟨⟨info.range, .own problem⟩, ?_, hmessage⟩
  exact congrArg (List.map fun finding => (⟨info.range, finding⟩ : Diagnostic)) hp

end Node

open Crew

/-- Every module that comes of a build stands on its level, and so do the modules behind its
imports, unless a wait was given up at the limit.  If the limit is zero, the catalog is never asked
for a module, and every import that could be followed gives one diagnostic. -/
theorem modules_on_level {env : ImportEnv} {workers : Nat} {callers : List Caller}
    (hb : ∀ a ∈ callers, a.Begins env) {deeds : List Deed} {c : Crew}
    (h : Voyage env.maxDepth ⟨.ofWorkers workers, [], callers⟩ deeds c) :
    (∀ tree document module, .built tree document module ∈ c.callers →
      module.depth = 0 ∧
        ∀ n, Reaches module n → n.OnLevel env.maxDepth (.expired ∈ deeds)) ∧
    (env.maxDepth = 0 → ¬ c.LooksUp ∧
      ∀ tree document module, .built tree document module ∈ c.callers →
        module.diagnostics = module.nodes.flatMap shallowDiagnostics ∧
        ∀ d ∈ module.nodes, d.edge?.isSome →
          ∃ diagnostic, d.shallowDiagnostics = [diagnostic] ∧
            notFoundNotice <+: diagnostic.message.toList) := by
  have hc := h.levelled id (levelled_begin workers hb _)
  have hbuilt (tree : SyntaxTree) (document : Document) (module : Node)
      (hm : .built tree document module ∈ c.callers) :
      module.depth = 0 ∧
        ∀ n, Reaches module n → n.OnLevel env.maxDepth (.expired ∈ deeds) := by
    obtain ⟨hdepth, hlevel, hnext⟩ := hc.callers _ hm
    refine ⟨hdepth, fun n hn => ?_⟩
    rcases hn.cases_head with rfl | ⟨t, ht, hn⟩
    · exact hlevel
    · exact (hnext t ht n hn).mono False.elim
  refine ⟨hbuilt, fun hz => ⟨(hz ▸ hc).not_looksUp, fun tree document module hm => ?_⟩⟩
  obtain ⟨hdepth, hlevel⟩ := hbuilt tree document module hm
  refine ⟨module.diagnostics_eq, fun d hd hedge => ?_⟩
  have hlevel := hlevel module .refl
  have hlimit : d.depth = env.maxDepth := by rw [hlevel.same d hd, hdepth, hz]
  exact shallowDiagnostics_of_stopped hedge ((hlevel.stop d hd hedge hlimit).imp_right And.right)

/-- Two modules that import each other. -/
def loop : ImportEnv where
  catalog := .ofFiles {} ⟨[
    ("file:///a.pkl".toList, "import \"b.pkl\"\n".toList),
    ("file:///b.pkl".toList, "import \"a.pkl\"\n".toList)]⟩
  source := SessionEnv.sourceOf (Outline.engine 14)
  maxDepth := 2

def loopEntry : Document := ⟨entryUri, some 1, "import \"b.pkl\"\n".toList⟩

def nextDepths (n : Node) : List (List Nat) := n.targets.map fun t => t.targets.map depth

theorem depth_plain (n : Node) : n.plain.depth = n.depth := by
  cases n
  rfl

theorem nextDepths_congr {m n : Node} (h : m.plain = n.plain) : nextDepths m = nextDepths n := by
  refine map_targets_congr h fun t => ?_
  rw [targets_plain, List.map_map]
  exact List.map_congr_left fun n _ => depth_plain n

theorem nextDepths_loop : (loop.directBuild loopEntry).toOption.map nextDepths = some [[2]] := by
  decide +kernel

theorem modules_on_level_loop :
    ∃ deeds c tree document module, Run loop ⟨.ofWorkers 2, [], [.reading loopEntry]⟩ deeds c ∧
      .built tree document module ∈ c.callers ∧ .expired ∉ deeds ∧
      (∃ n, Reaches module n ∧ n.depth = 2) ∧ ∀ n, Reaches module n → n.OnLevel 2 False := by
  have hr : loop.Regular := regular_sourceOf (Catalog.honest_ofFiles _ _) _ _
  have hq := Linker.quiet_ofWorkers (show 0 < 2 by decide)
  have hs := hq.sound rfl (Linker.faithful_ofWorkers loop 2)
    (reading_sound loop ImportEnv.nothing loopEntry 0)
  obtain ⟨caller, result, l', hres, _, _, _, _, _, deeds, hcalm, hrun⟩ :=
    Linker.buildEntry_spec hr hq rfl loopEntry
  obtain ⟨due, hsound⟩ := hrun.sound hr hcalm hs
  have hplain := result_plain (hsound.callers caller List.mem_cons_self) hres
  obtain ⟨direct, hdirect, hdepths⟩ := Option.map_eq_some_iff.1 nextDepths_loop
  cases hd : loop.directBuild loopEntry with
  | error e => simp [hd, Except.toOption] at hdirect
  | ok built =>
    have hbd : built = direct := by simpa [hd, Except.toOption] using hdirect
    cases caller with
    | built tree document module =>
      cases hres
      have hpm : module.plain = direct.plain := by
        rw [hd, hbd] at hplain
        exact Except.ok.inj hplain
      have hexpired : .expired ∉ deeds := fun hm => Bool.noConfusion (hcalm _ hm)
      have hbegins : ∀ a ∈ [Caller.reading loopEntry], a.Begins loop := by
        intro a ha
        rw [List.mem_singleton] at ha
        subst ha
        trivial
      obtain ⟨_, hlevel⟩ := (modules_on_level hbegins hrun.voyage).1 tree document module
        List.mem_cons_self
      refine ⟨deeds, _, tree, document, module, hrun, List.mem_cons_self, hexpired, ?_,
        fun n hn => (hlevel n hn).mono hexpired⟩
      have hnext : nextDepths module = [[2]] := (nextDepths_congr hpm).trans hdepths
      obtain ⟨t, ht, hdepths⟩ :=
        List.mem_map.1 (hnext ▸ List.mem_cons_self : [2] ∈ nextDepths module)
      obtain ⟨n, hn, hn2⟩ := List.mem_map.1 (hdepths ▸ List.mem_cons_self : 2 ∈ t.targets.map depth)
      exact ⟨n, .head ht (.single hn), hn2⟩
    | failed document =>
      cases hres
      rw [hd] at hplain
      cases hplain
    | _ => cases hres

end ModuleLens
