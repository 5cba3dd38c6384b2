import Mathlib.Logic.ExistsUnique
import Mathlib.Logic.Relation
import ModuleLens.Proofs.Linker.Turns

/-! Who waits for whom.  A thread that comes to a pending slot waits for the one thread that makes
its module; that thread can go on, or waits for a deeper slot.  A caller that waits for a reply waits
for the worker at the job, or for any worker while the job is in the queue.  So no chain of waiting
threads closes, each ends in a thread that can go on, and nothing ever waits for good. -/

namespace ModuleLens

open Node

variable {env : ImportEnv}

/-- Workers at a job, by its place among the jobs at work; callers; a worker without a job. -/
inductive Thread where
  | worker (index : Nat)
  | caller (index : Nat)
  | spare

namespace Errand

theorem Orderly.able_or_waits {α : Type} {e : Errand α} (h : e.Orderly) (l : Linker) :
    e.Able env (· ≠ .expired) l ∨
      ∃ k next, e = claim k next ∧ l.modules.get? k = some .pending := by
  obtain ⟨floor, h⟩ := h
  cases e with
  | finished result => exact .inl (.inl ⟨result, rfl⟩)
  | hung => exact h.elim
  | load importing path next =>
    exact .inl (.inr ⟨_, _, _, .load importing path next l, by simp⟩)
  | call document depth next =>
    exact .inl (.inr ⟨_, _, _, .call document depth next l, by simp⟩)
  | claim edition next =>
    rcases hk : l.modules.get? edition with _ | _ | product
    · exact .inl (.inr ⟨_, _, _, .granted next hk, by simp⟩)
    · exact .inr ⟨edition, next, rfl, hk⟩
    · exact .inl (.inr ⟨_, _, _, .found next hk, by simp⟩)
  | publish edition product next =>
    exact .inl (.inr ⟨_, _, _, .publish edition product next l, by simp⟩)
  | abandon edition next => exact .inl (.inr ⟨_, _, _, .abandon edition next l, by simp⟩)

theorem Orderly.deeper {α : Type} {k : Edition} {next : Claimed → Errand α}
    (h : (claim k next).Orderly) {j : Edition} (hj : j ∈ (claim k next).held) :
    j.depth < k.depth := by
  obtain ⟨floor, h⟩ := h
  exact h.2.1 j hj

def distance {α : Type} (bound : Nat) : Errand α → Nat
  | claim k _ => bound + 1 - k.depth
  | _ => 0

theorem distance_le {α : Type} (e : Errand α) (bound : Nat) : e.distance bound ≤ bound + 1 := by
  cases e <;> simp [distance]

end Errand

namespace Crew

def errandOf? (c : Crew) : Thread → Option (Errand (Outcome Node))
  | .worker i => c.active[i]?.map Job.errand
  | .caller i => c.callers[i]?.bind Caller.errand?
  | .spare => none

/-- A thread has claimed a slot and not yet filled or cleared it. -/
def Produces (c : Crew) (t : Thread) (k : Edition) : Prop :=
  ∃ e, c.errandOf? t = some e ∧ k ∈ e.held

def BlockedOn (c : Crew) (t : Thread) (k : Edition) : Prop :=
  c.linker.modules.get? k = some .pending ∧ ∃ next, c.errandOf? t = some (.claim k next)

def blockedOn? (c : Crew) (t : Thread) : Option Edition :=
  match c.errandOf? t with
  | some (.claim k _) => if c.linker.isSettled k then none else some k
  | _ => none

theorem blockedOn_of_eq_some {c : Crew} {t : Thread} {k : Edition} (h : c.blockedOn? t = some k) :
    c.BlockedOn t k := by
  simp only [blockedOn?] at h
  split at h
  · next j next he =>
    by_cases hs : c.linker.isSettled j
    · simp [hs] at h
    · simp only [hs] at h
      cases h
      refine ⟨SharedStore.claim_eq_busy.1 ?_, next, he⟩
      rw [Linker.isSettled] at hs
      split at hs
      · assumption
      · exact absurd rfl hs
  · cases h

/-- A thread can go on, other than by giving up a wait. -/
def CanStep (env : ImportEnv) (c : Crew) : Thread → Prop
  | .worker i => ∃ job, c.active[i]? = some job ∧ job.errand.Able env (· ≠ .expired) c.linker
  | .caller i => ∃ a, c.callers[i]? = some a ∧ ∃ deed a' l',
      Caller.Step env deed a c.linker a' l' ∧ deed ≠ .expired ∧ a'.Further a
  | .spare => 0 < c.linker.idle ∧ c.linker.queue ≠ []

def Awaits (c : Crew) (i ticket : Nat) : Prop :=
  ∃ entry r rs rest, c.callers[i]? = some (.collecting entry (r :: rs)) ∧
    Linker.takeTicket entry.tickets r.edge = some (ticket, rest) ∧
    c.linker.replies[ticket]? = none

inductive WaitsFor (c : Crew) : Thread → Thread → Prop where
  | slot {t u : Thread} {k : Edition} (ht : c.BlockedOn t k) (hu : c.Produces u k) : WaitsFor c t u
  | reply {i j ticket : Nat} {job : Job} (h : c.Awaits i ticket) (hj : c.active[j]? = some job)
      (ht : job.ticket = ticket) : WaitsFor c (.caller i) (.worker j)
  | start {i ticket : Nat} {job : Job} (h : c.Awaits i ticket) (hj : job ∈ c.linker.queue)
      (ht : job.ticket = ticket) (hi : 0 < c.linker.idle) : WaitsFor c (.caller i) .spare
  | turn {i j ticket : Nat} {job : Job} (h : c.Awaits i ticket) (hj : job ∈ c.linker.queue)
      (ht : job.ticket = ticket) (hi : c.linker.idle = 0) (hlt : j < c.active.length) :
      WaitsFor c (.caller i) (.worker j)

def Busy (c : Crew) : Thread → Prop
  | .worker i => i < c.active.length
  | .caller i => ∃ a, c.callers[i]? = some a ∧ a.isOver = false
  | .spare => 0 < c.linker.idle ∧ c.linker.queue ≠ []

theorem mem_errands {c : Crew} {t : Thread} {e : Errand (Outcome Node)}
    (h : c.errandOf? t = some e) : e ∈ c.errands := by
  cases t with
  | worker i =>
    obtain ⟨job, hj, rfl⟩ := Option.map_eq_some_iff.1 h
    exact List.mem_append_left _ (List.mem_map_of_mem (List.mem_of_getElem? hj))
  | caller i =>
    obtain ⟨a, ha, he⟩ := Option.bind_eq_some_iff.1 h
    exact List.mem_append_right _ (List.mem_filterMap.2 ⟨a, List.mem_of_getElem? ha, he⟩)
  | spare => cases h

theorem mem_held {c : Crew} {k : Edition} : k ∈ c.held ↔ ∃ t, c.Produces t k := by
  simp only [held, List.mem_append, List.mem_flatMap]
  constructor
  · rintro (⟨job, hj, hk⟩ | ⟨a, ha, hk⟩)
    · obtain ⟨i, hi⟩ := List.getElem?_of_mem hj
      exact ⟨.worker i, job.errand, congrArg (Option.map Job.errand) hi, hk⟩
    · obtain ⟨i, hi⟩ := List.getElem?_of_mem ha
      cases he : a.errand? with
      | none =>
        rw [Caller.held, he] at hk
        cases hk
      | some e =>
        rw [Caller.held, he] at hk
        exact ⟨.caller i, e, (congrArg (Option.bind · Caller.errand?) hi).trans he, hk⟩
  · rintro ⟨_ | _ | _, e, he, hk⟩
    · obtain ⟨job, hj, rfl⟩ := Option.map_eq_some_iff.1 he
      exact .inl ⟨job, List.mem_of_getElem? hj, hk⟩
    · obtain ⟨a, ha, he⟩ := Option.bind_eq_some_iff.1 he
      refine .inr ⟨a, List.mem_of_getElem? ha, ?_⟩
      rw [Caller.held, he]
      exact hk
    · cases he

section

variable {workers : Nat} {c : Crew}

theorem Attended.producer_unique (hc : c.Attended workers) {t u : Thread} {k : Edition}
    (ht : c.Produces t k) (hu : c.Produces u k) : t = u := by
  have hplace {t : Thread} (h : c.Produces t k) :
      (∃ i job, t = .worker i ∧ c.active[i]? = some job ∧ k ∈ job.errand.held) ∨
        ∃ i a, t = .caller i ∧ c.callers[i]? = some a ∧ k ∈ a.held := by
    obtain ⟨e, he, hk⟩ := h
    cases t with
    | worker i =>
      obtain ⟨job, hj, rfl⟩ := Option.map_eq_some_iff.1 he
      exact .inl ⟨i, job, rfl, hj, hk⟩
    | caller i =>
      obtain ⟨a, ha, he⟩ := Option.bind_eq_some_iff.1 he
      refine .inr ⟨i, a, rfl, ha, ?_⟩
      rw [Caller.held, he]
      exact hk
    | spare => cases he
  obtain ⟨hactive, hcallers, hdisjoint⟩ := List.nodup_append.1 hc.nodup
  have hcross {i j : Nat} {job : Job} {a : Caller} (hj : c.active[i]? = some job)
      (hk : k ∈ job.errand.held) (ha : c.callers[j]? = some a) (hk' : k ∈ a.held) : False :=
    hdisjoint k (List.mem_flatMap.2 ⟨job, List.mem_of_getElem? hj, hk⟩) k
      (List.mem_flatMap.2 ⟨a, List.mem_of_getElem? ha, hk'⟩) rfl
  obtain ⟨i, job, rfl, hi, hki⟩ | ⟨i, a, rfl, hi, hki⟩ := hplace ht <;>
    obtain ⟨j, job', rfl, hj, hkj⟩ | ⟨j, a', rfl, hj, hkj⟩ := hplace hu
  · exact congrArg _ (place_unique hactive hi hj hki hkj)
  · exact (hcross hi hki hj hkj).elim
  · exact (hcross hj hkj hi hki).elim
  · exact congrArg _ (place_unique hcallers hi hj hki hkj)

theorem Attended.orderly (hc : c.Attended workers) {t : Thread} {e : Errand (Outcome Node)}
    (h : c.errandOf? t = some e) : e.Orderly := by
  cases t with
  | worker i =>
    obtain ⟨job, hj, rfl⟩ := Option.map_eq_some_iff.1 h
    exact hc.active job (List.mem_of_getElem? hj)
  | caller i =>
    obtain ⟨a, ha, he⟩ := Option.bind_eq_some_iff.1 h
    exact (hc.callers a (List.mem_of_getElem? ha)).errand he
  | spare => cases h

theorem Attended.canStep_or_blocked (hc : c.Attended workers) {t : Thread}
    {e : Errand (Outcome Node)} (h : c.errandOf? t = some e) :
    c.CanStep env t ∨ ∃ k, c.BlockedOn t k := by
  rcases (hc.orderly h).able_or_waits c.linker with hable | ⟨k, next, rfl, hk⟩
  · left
    cases t with
    | worker i =>
      obtain ⟨job, hj, rfl⟩ := Option.map_eq_some_iff.1 h
      exact ⟨job, hj, hable⟩
    | caller i =>
      obtain ⟨a, ha, he⟩ := Option.bind_eq_some_iff.1 h
      exact ⟨a, ha, Caller.step_of_able he hable (by simp)⟩
    | spare => cases h
  · exact .inr ⟨k, hk, next, h⟩

/-- A thread claims only what is deeper than all that it makes. -/
theorem Attended.deeper (hc : c.Attended workers) {t : Thread} {j k : Edition}
    (ht : c.BlockedOn t k) (hj : c.Produces t j) : j.depth < k.depth := by
  obtain ⟨_, next, hn⟩ := ht
  obtain ⟨e, he, hm⟩ := hj
  rw [hn] at he
  cases he
  exact (hc.orderly hn).deeper hm

theorem Attended.exists_producer (hc : c.Attended workers) {t : Thread} {k : Edition}
    (ht : c.BlockedOn t k) : ∃ u, c.Produces u k :=
  mem_held.1 ((hc.pending k).1 ht.1)

/-- How far a thread is from one that does not wait, if no slot that is held is deeper than
`bound`. -/
def distance (c : Crew) (bound : Nat) : Thread → Nat
  | .spare => 0
  | .worker i => ((c.errandOf? (.worker i)).map (Errand.distance bound)).getD (bound + 2)
  | .caller i => ((c.errandOf? (.caller i)).map (Errand.distance bound)).getD (bound + 2)

theorem distance_of_errand {t : Thread} {e : Errand (Outcome Node)} (h : c.errandOf? t = some e)
    (bound : Nat) : c.distance bound t = e.distance bound := by
  cases t with
  | spare => cases h
  | _ => rw [distance, h]; rfl

theorem distance_of_awaits {i ticket : Nat} (h : c.Awaits i ticket) (bound : Nat) :
    c.distance bound (.caller i) = bound + 2 := by
  obtain ⟨entry, r, rs, rest, hi, _⟩ := h
  simp [distance, errandOf?, hi, Caller.errand?]

theorem Attended.waitsFor_wellFounded (hc : c.Attended workers) :
    WellFounded fun u t => c.WaitsFor t u := by
  let bound := (c.held.map Edition.depth).max?.getD 0
  have hbound {k : Edition} (hk : k ∈ c.held) : k.depth ≤ bound :=
    List.le_max?_getD_of_mem (List.mem_map_of_mem hk)
  have hworker {j : Nat} (hj : j < c.active.length) :
      c.distance bound (.worker j) ≤ bound + 1 := by
    have he : c.errandOf? (.worker j) = some (c.active.get ⟨j, hj⟩).errand := by
      simp [errandOf?, List.getElem?_eq_getElem hj]
    rw [distance_of_errand he]
    exact Errand.distance_le _ bound
  refine Subrelation.wf (fun {u t} h => ?_) (measure (c.distance bound)).wf
  change c.distance bound u < c.distance bound t
  cases h with
  | @slot _ _ k ht hu =>
    have hk := hbound ((hc.pending k).1 ht.1)
    obtain ⟨_, next, hn⟩ := ht
    obtain ⟨e, he, hm⟩ := hu
    rw [distance_of_errand hn, distance_of_errand he]
    -- the producer waits for a deeper slot, or does not wait for a slot at all
    cases e with
    | claim k' next' =>
      have hlt := (hc.orderly he).deeper hm
      simp only [Errand.distance]
      omega
    | _ =>
      simp only [Errand.distance]
      omega
  | reply h hj ht =>
    have hle := hworker (List.getElem?_eq_some_iff.1 hj).1
    rw [distance_of_awaits h]
    omega
  | start h hj ht hi =>
    rw [distance_of_awaits h]
    exact Nat.succ_pos _
  | turn h hj ht hi hlt =>
    have hle := hworker hlt
    rw [distance_of_awaits h]
    omega

theorem Attended.exists_waitsFor (hw : 0 < workers) (hc : c.Attended workers) {i ticket : Nat}
    (h : c.Awaits i ticket) : ∃ u, c.WaitsFor (.caller i) u := by
  have hawaits := h
  obtain ⟨entry, r, rs, rest, ha, htake, hrep⟩ := h
  have hlt : ticket < c.linker.tickets :=
    hc.callers _ (List.mem_of_getElem? ha) r.edge ticket (Linker.takeTicket_eq_some htake).1
  -- the job is at work or in the queue, and then there is a worker, idle or not
  rcases hc.staffed.replies ticket hlt with hcontains | ⟨job, hj, hjt⟩
  · have hsome := Std.TreeMap.isSome_getElem?_eq_contains.trans hcontains
    rw [hrep] at hsome
    cases hsome
  · rcases List.mem_append.1 hj with hq | hactive
    · rcases Nat.eq_zero_or_pos c.linker.idle with hi | hi
      · have hlen := hc.staffed.workers
        exact ⟨.worker 0, .turn hawaits hq hjt hi (by omega)⟩
      · exact ⟨.spare, .start hawaits hq hjt hi⟩
    · obtain ⟨j, hj⟩ := List.getElem?_of_mem hactive
      exact ⟨.worker j, .reply hawaits hj hjt⟩

theorem Attended.canStep_or_waits (hs : ∀ document, env.source document ≠ .hangs)
    (hw : 0 < workers) (hc : c.Attended workers) {t : Thread} (ht : c.Busy t) :
    c.CanStep env t ∨ ∃ u, c.WaitsFor t u := by
  have hat {t : Thread} {e : Errand (Outcome Node)} (he : c.errandOf? t = some e) :
      c.CanStep env t ∨ ∃ u, c.WaitsFor t u := by
    rcases hc.canStep_or_blocked he with hcan | ⟨k, hk⟩
    · exact .inl hcan
    · obtain ⟨u, hu⟩ := hc.exists_producer hk
      exact .inr ⟨u, .slot hk hu⟩
  cases t with
  | worker i =>
    have hi : c.active[i]? = some _ := List.getElem?_eq_getElem ht
    exact hat (congrArg (Option.map Job.errand) hi)
  | spare => exact .inl ht
  | caller i =>
    obtain ⟨a, ha, ho⟩ := ht
    cases he : a.errand? with
    | some e => exact hat ((congrArg (Option.bind · Caller.errand?) ha).trans he)
    | none =>
      by_cases hu : ∃ document, a = .reading document ∧ env.source document = .unwinds
      · obtain ⟨document, rfl, _⟩ := hu
        exact .inl ⟨_, ha, _, _, _, .readUnwound document c.linker, by simp,
          .left _ _ (by decide)⟩
      have hread (document : Document) (hd : a = .reading document) :
          env.source document = .failed ∨ ∃ tree, env.source document = .tree tree := by
        cases hsource : env.source document with
        | tree tree => exact .inr ⟨tree, rfl⟩
        | failed => exact .inl rfl
        | unwinds => exact absurd ⟨document, hd, hsource⟩ hu
        | hangs => exact absurd hsource (hs document)
      rcases Caller.exists_step hread he ho c.linker with ⟨deed, a', l', h, hcalm, hf⟩ |
        ⟨entry, r, rs, ticket, rest, rfl, htake, hrep⟩
      · refine .inl ⟨a, ha, deed, a', l', h, ?_, hf⟩
        rintro rfl
        cases hcalm
      · exact .inr (hc.exists_waitsFor hw ⟨entry, r, rs, rest, ha, htake, hrep⟩)

theorem busy_of_errand {t : Thread} {e : Errand (Outcome Node)} (h : c.errandOf? t = some e) :
    c.Busy t := by
  cases t with
  | worker i =>
    obtain ⟨job, hj, _⟩ := Option.map_eq_some_iff.1 h
    exact (List.getElem?_eq_some_iff.1 hj).1
  | caller i =>
    obtain ⟨a, ha, he⟩ := Option.bind_eq_some_iff.1 h
    refine ⟨a, ha, ?_⟩
    cases a <;> first | rfl | cases he
  | spare => cases h

theorem WaitsFor.busy {t u : Thread} (h : c.WaitsFor t u) : c.Busy u := by
  cases h with
  | slot ht hu =>
    obtain ⟨e, he, _⟩ := hu
    exact busy_of_errand he
  | reply h hj ht => exact (List.getElem?_eq_some_iff.1 hj).1
  | start h hj ht hi => exact ⟨hi, List.ne_nil_of_mem hj⟩
  | turn h hj ht hi hlt => exact hlt

theorem step_of_canStep {t : Thread} (h : c.CanStep env t) :
    ∃ deed c', Step env deed c c' ∧ deed ≠ .expired ∧ Less c' c := by
  cases t with
  | worker i =>
    obtain ⟨job, hj, hable⟩ := h
    exact step_of_able (mem_errands (t := .worker i) (congrArg (Option.map Job.errand) hj)) hable
      (by simp)
  | caller i =>
    obtain ⟨a, ha, deed, a', l', hstep, hd, hf⟩ := h
    obtain ⟨l, active, callers⟩ := c
    obtain ⟨pre, post, rfl⟩ := List.append_of_mem (List.mem_of_getElem? ha)
    exact ⟨deed, _, .call active pre post hstep, hd, less_call hf l l' active pre post⟩
  | spare =>
    obtain ⟨hi, hne⟩ := h
    obtain ⟨l, active, callers⟩ := c
    obtain ⟨job, rest, hq⟩ := List.exists_cons_of_ne_nil hne
    exact ⟨_, _, .take active callers hi hq, by simp, less_take hq active callers⟩

end

end Crew

open Crew

/-- Whatever happens on the way, as long as the module source comes back: a slot is pending exactly
while one thread makes its module.  A thread that is blocked on a slot does not make that module
itself, and the thread that does can go on or is blocked on a deeper slot.  No chain of threads that
wait for each other goes on forever, and a chain that cannot be continued ends in a thread that can
go on.  While something is not over, something other than giving up a wait can be done, and it leaves
less to do. -/
theorem no_circular_wait (hs : ∀ document, env.source document ≠ .hangs) {workers : Nat}
    (hw : 0 < workers) {callers : List Caller} (hb : ∀ a ∈ callers, a.Begins env)
    {deeds : List Deed} {c : Crew} (h : Course env ⟨.ofWorkers workers, [], callers⟩ deeds c) :
    (∀ k, c.linker.modules.get? k = some .pending ↔ ∃! u, c.Produces u k) ∧
    (∀ t k, c.BlockedOn t k → ¬ c.Produces t k ∧
      ∃ u, c.Produces u k ∧ (c.CanStep env u ∨ ∃ k', c.BlockedOn u k' ∧ k.depth < k'.depth)) ∧
    (WellFounded fun u t => c.WaitsFor t u) ∧
    (∀ t u, c.Busy t → Relation.ReflTransGen c.WaitsFor t u →
      c.CanStep env u ∨ ∃ v, c.WaitsFor u v) ∧
    ∀ t, c.Busy t → ∃ deed c', Step env deed c c' ∧ deed ≠ .expired ∧ Less c' c := by
  have hc := h.attended hs (attended_begin workers hb)
  have hwf := hc.waitsFor_wellFounded
  refine ⟨fun k => ?_, fun t k ht => ⟨fun hself => ?_, ?_⟩, hwf, fun t u ht htu => ?_,
    fun t ht => ?_⟩
  · rw [hc.pending k, mem_held]
    constructor
    · rintro ⟨u, hu⟩
      exact ⟨u, hu, fun v hv => hc.producer_unique hv hu⟩
    · rintro ⟨u, hu, _⟩
      exact ⟨u, hu⟩
  · exact Nat.lt_irrefl _ (hc.deeper ht hself)
  · obtain ⟨u, hu⟩ := hc.exists_producer ht
    have hproduces := hu
    obtain ⟨e, he, _⟩ := hu
    refine ⟨u, hproduces, ?_⟩
    rcases hc.canStep_or_blocked he with hcan | ⟨k', hk'⟩
    · exact .inl hcan
    · exact .inr ⟨k', hk', hc.deeper hk' hproduces⟩
  · have hu : c.Busy u := by
      rcases htu.cases_tail with rfl | ⟨v, _, hvu⟩
      · exact ht
      · exact hvu.busy
    exact hc.canStep_or_waits hs hw hu
  · -- along the chain of who waits for whom
    induction t using hwf.induction with
    | h t ih =>
      rcases hc.canStep_or_waits hs hw ht with hcan | ⟨u, hu⟩
      · exact step_of_canStep hcan
      · exact ih u hu hu.busy

theorem no_circular_wait_diamond : (∀ document, diamond.source document ≠ .hangs) ∧ 0 < 2 ∧
    (∀ a ∈ diamondCallers, a.Begins diamond) ∧
    ∃ deeds c k u, Course diamond ⟨.ofWorkers 2, [], diamondCallers⟩ deeds c ∧
      c.BlockedOn (.caller 0) k ∧ ¬ c.Produces (.caller 0) k ∧ c.Produces u k ∧
      (c.CanStep diamond u ∨ ∃ k', c.BlockedOn u k' ∧ k.depth < k'.depth) ∧
      ∃ deed c', Step diamond deed c c' ∧ deed ≠ .expired := by
  have hr : diamond.Regular := regular_sourceOf (Catalog.honest_ofFiles _ _) _ _
  have hs (document : Document) : diamond.source document ≠ .hangs := by
    rcases hr.parses document with hf | ⟨tree, ht⟩ <;> simp [*]
  let c := play diamond ⟨.ofWorkers 2, [], diamondCallers⟩ meeting
  obtain ⟨deeds, hrun⟩ := course_play diamond ⟨.ofWorkers 2, [], diamondCallers⟩ meeting
  have hmet : (c.blockedOn? (.caller 0)).isSome := by decide +kernel
  obtain ⟨k, hk⟩ := Option.isSome_iff_exists.1 hmet
  have hblocked := blockedOn_of_eq_some hk
  obtain ⟨_, hslot, _, _, hgo⟩ := no_circular_wait hs (by decide : 0 < 2) diamondCallers_begin hrun
  obtain ⟨hself, u, hu, hcan⟩ := hslot _ k hblocked
  obtain ⟨next, hn⟩ := hblocked.2
  obtain ⟨deed, c', hstep, hd, _⟩ := hgo _ (busy_of_errand hn)
  exact ⟨hs, by decide, diamondCallers_begin, deeds, c, k, u, hrun, hblocked, hself, hu, hcan, deed,
    c', hstep, hd⟩

end ModuleLens
