import Mathlib.Data.List.Nodup
import Mathlib.Data.List.Perm.Subperm
import Mathlib.Logic.Relation
import ModuleLens.WorkQueue

/-! Workers on one queue, in whatever order they come.  The owner submits jobs, closes the queue and
then waits for its workers one after the other; a worker takes the oldest job whenever it is free,
comes back from it whether or not it is thrown out, and ends when the queue is closed and empty.  No
job is lost or run twice, and when the owner is done, so is every job. -/

namespace ModuleLens

namespace WorkQueue

variable {ι : Type} {q q' : WorkQueue ι}

theorem submit_eq_some {job : ι} :
    q.submit job = some q' ↔
      q.closed = false ∧ q' = { q with waiting := q.waiting.push job } := by
  rw [submit]
  cases q.closed <;> simp [eq_comm]

theorem take_eq_some :
    q.take = some q' ↔
      ∃ worker idle job waiting, q.idle = worker :: idle ∧ q.waiting.pop? = some (job, waiting) ∧
        q' = { q with
          idle, waiting
          running := (worker, job) :: q.running
          history := (worker, job) :: q.history } := by
  rw [take]
  split
  · next h => simp [h]
  · next worker idle h =>
    constructor
    · intro hq
      obtain ⟨⟨job, waiting⟩, hpop, rfl⟩ := Option.map_eq_some_iff.1 hq
      exact ⟨worker, idle, job, waiting, h, hpop, rfl⟩
    · rintro ⟨w, ws, job, waiting, hidle, hpop, rfl⟩
      obtain ⟨rfl, rfl⟩ := List.cons_eq_cons.1 (h.symm.trans hidle)
      exact Option.map_eq_some_iff.2 ⟨(job, waiting), hpop, rfl⟩

theorem finish_eq_some {worker : Nat} :
    q.finish worker = some q' ↔
      worker ∈ q.running.map Prod.fst ∧
        q' = { q with
          idle := worker :: q.idle
          running := q.running.filter fun r => r.1 != worker } := by
  have hany : (q.running.any fun r => r.1 == worker) = true ↔ worker ∈ q.running.map Prod.fst := by
    simp only [List.any_eq_true, List.mem_map, beq_iff_eq]
  rw [finish]
  split
  · next h => rw [Option.some.injEq, and_iff_right (hany.1 h), eq_comm]
  · next h => exact ⟨fun hq => (nomatch hq), fun hm => absurd (hany.2 hm.1) h⟩

/-- A worker runs one job, so that this one leaves when the worker is done. -/
theorem running_perm {running : List (Nat × ι)} (h : (running.map Prod.fst).Nodup) {worker : Nat}
    {job : ι} (hm : (worker, job) ∈ running) :
    running.Perm ((worker, job) :: running.filter fun r => r.1 != worker) := by
  induction running with
  | nil => cases hm
  | cons r running ih =>
    rw [List.map_cons, List.nodup_cons] at h
    rcases List.mem_cons.1 hm with rfl | hm
    · have hrest : running.filter (fun r => r.1 != worker) = running :=
        List.filter_eq_self.2 fun r hr => by
          have hr : r.1 ∈ running.map Prod.fst := List.mem_map_of_mem hr
          simpa using fun he : r.1 = worker => h.1 (he ▸ hr)
      simp [hrest]
    · have hat : worker ∈ running.map Prod.fst := List.mem_map_of_mem hm
      have hne : r.1 ≠ worker := fun he => h.1 (he ▸ hat)
      rw [List.filter_cons_of_pos (by simpa using hne)]
      exact ((ih h.2 hm).cons r).trans (List.Perm.swap _ _ _)

end WorkQueue

/-- A queue with the threads of its workers and of its owner.  Jobs are numbered as they come, so
that each is told from all others. -/
structure StaffedQueue (ι : Type) where
  queue : WorkQueue (Nat × ι)
  /-- Every job that was submitted, the oldest first. -/
  submitted : List (Nat × ι) := []
  /-- Every job that a worker came back from. -/
  finished : List (Nat × ι) := []
  /-- The jobs that were thrown out, as workers reported them. -/
  reported : List (Nat × ι) := []
  /-- The workers whose threads have ended. -/
  ended : List Nat := []
  /-- How many workers the owner has waited for. -/
  joined : Nat := 0

namespace StaffedQueue

variable {ι : Type}

def start (workers : Nat) : StaffedQueue ι := { queue := .start workers }

/-- Every job that was started, the first one first. -/
def started (p : StaffedQueue ι) : List (Nat × ι) := p.queue.started.map Prod.snd

def running (p : StaffedQueue ι) : List (Nat × ι) := p.queue.running.map Prod.snd

/-- The owner has closed the queue and waited for all workers. -/
def Returned (p : StaffedQueue ι) : Prop := p.queue.closed ∧ p.joined = p.queue.workers

/-- One step of the owner or of a worker, where `throws` says which jobs are thrown out.  It is open
which worker comes next. -/
inductive Step (throws : ι → Prop) : StaffedQueue ι → StaffedQueue ι → Prop where
  | submit {p : StaffedQueue ι} {q : WorkQueue (Nat × ι)} (job : ι)
      (h : p.queue.submit (p.submitted.length, job) = some q) :
      Step throws p
        { p with queue := q, submitted := p.submitted ++ [(p.submitted.length, job)] }
  | take {p : StaffedQueue ι} {idle : List Nat} {q : WorkQueue (Nat × ι)}
      (hp : idle.Perm p.queue.idle) (h : { p.queue with idle }.take = some q) :
      Step throws p { p with queue := q }
  | finish {p : StaffedQueue ι} {worker : Nat} {job : Nat × ι} {q : WorkQueue (Nat × ι)}
      (hr : (worker, job) ∈ p.queue.running) (ht : ¬ throws job.2)
      (h : p.queue.finish worker = some q) :
      Step throws p { p with queue := q, finished := job :: p.finished }
  | throw {p : StaffedQueue ι} {worker : Nat} {job : Nat × ι} {q : WorkQueue (Nat × ι)}
      (hr : (worker, job) ∈ p.queue.running) (ht : throws job.2)
      (h : p.queue.finish worker = some q) :
      Step throws p
        { p with queue := q, finished := job :: p.finished, reported := job :: p.reported }
  /-- A free worker is told that the queue is closed and empty. -/
  | leave {p : StaffedQueue ι} {worker : Nat} (hi : worker ∈ p.queue.idle)
      (hc : p.queue.closed) (hw : p.queue.waiting.toList = []) :
      Step throws p
        { p with
          queue := { p.queue with idle := p.queue.idle.erase worker }
          ended := worker :: p.ended }
  | close {p : StaffedQueue ι} (h : p.queue.closed = false) :
      Step throws p { p with queue := p.queue.close }
  /-- The owner finds that the next worker has ended. -/
  | join {p : StaffedQueue ι} (hc : p.queue.closed) (h : p.joined ∈ p.ended) :
      Step throws p { p with joined := p.joined + 1 }

abbrev Reaches (throws : ι → Prop) : StaffedQueue ι → StaffedQueue ι → Prop :=
  Relation.ReflTransGen (Step throws)

variable {throws : ι → Prop} {n : Nat} {p p' : StaffedQueue ι}

/-- What every step keeps.  Each job is waiting, running or finished, in the order of submission as
far as it was started; each worker is free, at work or ended. -/
structure Orderly (throws : ι → Prop) (n : Nat) (p : StaffedQueue ι) : Prop where
  workers : p.queue.workers = n
  numbered : p.submitted.map Prod.fst = List.range p.submitted.length
  jobs : p.started ++ p.queue.waiting.toList = p.submitted
  runs : (p.running ++ p.finished).Perm p.started
  staff : (p.queue.idle ++ p.queue.running.map Prod.fst ++ p.ended).Perm (List.range n)
  ended : p.ended ≠ [] → p.queue.closed ∧ p.queue.waiting.toList = []
  joined : ∀ worker < p.joined, worker ∈ p.ended
  reported : ∀ job, job ∈ p.reported ↔ job ∈ p.finished ∧ throws job.2

theorem start_orderly (workers : Nat) :
    (start workers : StaffedQueue ι).Orderly throws (max 1 workers) where
  workers := rfl
  numbered := rfl
  jobs := rfl
  runs := .refl _
  staff := by simp [start, WorkQueue.start]
  ended := fun h => absurd rfl h
  joined := fun _ h => absurd h (Nat.not_lt_zero _)
  reported := by simp [start]

theorem Orderly.nodup_running (h : p.Orderly throws n) : (p.queue.running.map Prod.fst).Nodup :=
  ((h.staff.nodup_iff.2 List.nodup_range).of_append_left).of_append_right

theorem Orderly.submit (h : p.Orderly throws n) {job : ι} {q : WorkQueue (Nat × ι)}
    (hq : p.queue.submit (p.submitted.length, job) = some q) :
    Orderly throws n
      { p with queue := q, submitted := p.submitted ++ [(p.submitted.length, job)] } := by
  obtain ⟨hopen, rfl⟩ := WorkQueue.submit_eq_some.1 hq
  refine ⟨h.workers, ?_, ?_, h.runs, h.staff, fun he => ?_, h.joined, h.reported⟩
  · simp [h.numbered, List.range_succ]
  · change p.started ++ (p.queue.waiting.push _).toList = _
    rw [Fifo.toList_push, ← List.append_assoc, h.jobs]
  · -- workers end after the queue is closed
    have hclosed := (h.ended he).1
    rw [hopen] at hclosed
    cases hclosed

theorem Orderly.take (h : p.Orderly throws n) {idle : List Nat} {q : WorkQueue (Nat × ι)}
    (hp : idle.Perm p.queue.idle) (hq : { p.queue with idle }.take = some q) :
    Orderly throws n { p with queue := q } := by
  obtain ⟨worker, rest, job, waiting, hidle, hpop, rfl⟩ := WorkQueue.take_eq_some.1 hq
  have hidle : idle = worker :: rest := hidle
  have hwaiting : p.queue.waiting.toList = job :: waiting.toList := Fifo.toList_of_pop? hpop
  have hstarted : started { p with queue :=
      { p.queue with
        idle := rest, waiting
        running := (worker, job) :: p.queue.running
        history := (worker, job) :: p.queue.history } } = p.started ++ [job] := by
    simp [started, WorkQueue.started]
  refine ⟨h.workers, h.numbered, ?_, ?_, ?_, fun he => ?_, h.joined, h.reported⟩
  · refine Eq.trans ?_ h.jobs
    rw [hwaiting]
    simp [hstarted]
  · rw [hstarted]
    exact (h.runs.cons job).trans (List.perm_append_singleton job p.started).symm
  · refine .trans ?_ h.staff
    refine List.Perm.append_right _ (.trans ?_ (hp.append_right _))
    rw [hidle]
    exact List.perm_middle
  · have hnone := (h.ended he).2
    rw [hwaiting] at hnone
    cases hnone

theorem Orderly.back (h : p.Orderly throws n) {worker : Nat} {job : Nat × ι}
    {q : WorkQueue (Nat × ι)} (hr : (worker, job) ∈ p.queue.running)
    (hq : p.queue.finish worker = some q) {reported : List (Nat × ι)}
    (hreported : ∀ j, j ∈ reported ↔ j ∈ job :: p.finished ∧ throws j.2) :
    Orderly throws n { p with queue := q, finished := job :: p.finished, reported } := by
  obtain ⟨_, rfl⟩ := WorkQueue.finish_eq_some.1 hq
  have hperm := WorkQueue.running_perm h.nodup_running hr
  refine ⟨h.workers, h.numbered, h.jobs, ?_, ?_, h.ended, h.joined, hreported⟩
  · exact List.perm_middle.trans ((hperm.map Prod.snd).symm.append_right p.finished |>.trans h.runs)
  · refine .trans (List.Perm.append_right _ ?_) h.staff
    exact List.perm_middle.symm.trans ((hperm.map Prod.fst).symm.append_left p.queue.idle)

theorem Orderly.leave (h : p.Orderly throws n) {worker : Nat} (hi : worker ∈ p.queue.idle)
    (hc : p.queue.closed) (hw : p.queue.waiting.toList = []) :
    Orderly throws n
      { p with
        queue := { p.queue with idle := p.queue.idle.erase worker }
        ended := worker :: p.ended } := by
  refine ⟨h.workers, h.numbered, h.jobs, h.runs, ?_, fun _ => ⟨hc, hw⟩,
    fun w hlt => List.mem_cons_of_mem worker (h.joined w hlt), h.reported⟩
  refine .trans ?_ h.staff
  refine List.perm_middle.trans ?_
  simpa using ((List.perm_cons_erase hi).symm.append_right _).append_right p.ended

theorem Step.orderly (h : Step throws p p') (ho : p.Orderly throws n) : p'.Orderly throws n := by
  cases h with
  | submit job hq => exact ho.submit hq
  | take hp hq => exact ho.take hp hq
  | finish hr ht hq =>
    refine ho.back hr hq fun j => ?_
    rw [ho.reported j, List.mem_cons]
    constructor
    · exact fun ⟨hm, hj⟩ => ⟨.inr hm, hj⟩
    · rintro ⟨rfl | hm, hj⟩
      · exact absurd hj ht
      · exact ⟨hm, hj⟩
  | @throw worker job q hr ht hq =>
    refine ho.back hr hq fun j => ?_
    rw [List.mem_cons, List.mem_cons, ho.reported j]
    constructor
    · rintro (rfl | ⟨hm, hj⟩)
      · exact ⟨.inl rfl, ht⟩
      · exact ⟨.inr hm, hj⟩
    · rintro ⟨hm, hj⟩
      exact hm.imp_right fun hm => ⟨hm, hj⟩
  | leave hi hc hw => exact ho.leave hi hc hw
  | close hopen =>
    exact ⟨ho.workers, ho.numbered, ho.jobs, ho.runs, ho.staff, fun he => ⟨rfl, (ho.ended he).2⟩,
      ho.joined, ho.reported⟩
  | join hc hj =>
    refine ⟨ho.workers, ho.numbered, ho.jobs, ho.runs, ho.staff, ho.ended, fun w hlt => ?_,
      ho.reported⟩
    rcases Nat.lt_succ_iff_lt_or_eq.1 hlt with hlt | rfl
    · exact ho.joined w hlt
    · exact hj

theorem Reaches.orderly (h : Reaches throws p p') (ho : p.Orderly throws n) :
    p'.Orderly throws n := by
  induction h with
  | refl => exact ho
  | tail _ s ih => exact s.orderly ih

/-- A worker that starts a job is free before, and all free workers have numbers below the number of
workers. -/
theorem Step.workersKnown (h : Step throws p p') (ho : p.Orderly throws n)
    (hk : p.queue.workersKnown) : p'.queue.workersKnown := by
  cases h with
  | submit job hq =>
    obtain ⟨_, rfl⟩ := WorkQueue.submit_eq_some.1 hq
    exact hk
  | @take idle _ hp hq =>
    obtain ⟨worker, rest, job, waiting, hidle, _, rfl⟩ := WorkQueue.take_eq_some.1 hq
    have hfree : worker ∈ p.queue.idle := by
      have hidle : idle = worker :: rest := hidle
      exact hp.subset (hidle ▸ List.mem_cons_self)
    have hlt : worker < n := by
      refine List.mem_range.1 (ho.staff.subset ?_)
      simp [hfree]
    rw [WorkQueue.workersKnown, List.all_cons, Bool.and_eq_true]
    exact ⟨decide_eq_true (ho.workers ▸ hlt), hk⟩
  | finish _ _ hq | throw _ _ hq =>
    obtain ⟨_, rfl⟩ := WorkQueue.finish_eq_some.1 hq
    exact hk
  | leave _ _ _ => exact hk
  | close _ => exact hk
  | join _ _ => exact hk

theorem workersKnown_of_reaches {workers : Nat} (h : Reaches throws (.start workers) p) :
    p.queue.workersKnown := by
  induction h with
  | refl => rfl
  | tail h s ih => exact s.workersKnown (Reaches.orderly h (start_orderly workers)) ih

/-- Where each worker is counted once, the ended ones are no more than there are. -/
theorem Orderly.staff_length (h : p.Orderly throws n) :
    p.queue.idle.length + p.queue.running.length + p.ended.length = n := by
  simpa [Nat.add_assoc] using h.staff.length_eq

theorem Orderly.joined_le (h : p.Orderly throws n) : p.joined ≤ p.ended.length := by
  have hsub := List.nodup_range.subperm fun w hw => h.joined w (List.mem_range.1 hw)
  simpa using hsub.length_le

/-- All workers have ended if the owner has waited for all of them, and so nothing is left. -/
theorem Orderly.returned (h : p.Orderly throws n) (hn : 0 < n) (hr : p.Returned) :
    p.queue.running = [] ∧ p.queue.waiting.toList = [] := by
  have hlength := h.staff_length
  have hjoined := h.joined_le
  rw [hr.2, h.workers] at hjoined
  have hended : p.ended ≠ [] := List.ne_nil_of_length_pos (by omega)
  exact ⟨List.eq_nil_of_length_eq_zero (by omega), (h.ended hended).2⟩

/-- What is left to do once the queue is closed. -/
def left (p : StaffedQueue ι) : Nat :=
  3 * p.queue.waiting.toList.length + 2 * p.queue.running.length + p.queue.idle.length +
    (p.queue.workers - p.joined)

theorem Step.left_lt (h : Step throws p p') (ho : p.Orderly throws n) (hc : p.queue.closed) :
    p'.left < p.left := by
  have hwork {worker : Nat} {job : Nat × ι} (hr : (worker, job) ∈ p.queue.running) :
      p.queue.running.length =
        (p.queue.running.filter fun r => r.1 != worker).length + 1 :=
    (WorkQueue.running_perm ho.nodup_running hr).length_eq
  cases h with
  | submit job hq =>
    rw [(WorkQueue.submit_eq_some.1 hq).1] at hc
    cases hc
  | take hp hq =>
    obtain ⟨worker, rest, job, waiting, hidle, hpop, rfl⟩ := WorkQueue.take_eq_some.1 hq
    have hlen := hp.length_eq
    have hidle := congrArg List.length hidle
    have hwaiting := congrArg List.length (Fifo.toList_of_pop? hpop)
    simp only [List.length_cons] at hidle hwaiting
    simp only [left, List.length_cons]
    omega
  | finish hr _ hq | throw hr _ hq =>
    obtain ⟨_, rfl⟩ := WorkQueue.finish_eq_some.1 hq
    have hone := hwork hr
    simp only [left, List.length_cons]
    omega
  | leave hi hc hw =>
    have hlen := List.length_erase_add_one hi
    simp only [left]
    omega
  | close hopen =>
    rw [hopen] at hc
    cases hc
  | join hc hj =>
    have hm : p.joined ∈ List.range n := ho.staff.subset (List.mem_append_right _ hj)
    have hlt := List.mem_range.1 hm
    have hworkers := ho.workers
    simp only [left]
    omega

/-- Until the owner is done someone can go on: a worker at work, a free one, or the owner. -/
theorem Orderly.exists_step (h : p.Orderly throws n) (hc : p.queue.closed) (hr : ¬ p.Returned) :
    ∃ p', Step throws p p' := by
  have hlength := h.staff_length
  cases hrunning : p.queue.running with
  | cons r running =>
    have hm : (r.1, r.2) ∈ p.queue.running := hrunning ▸ List.mem_cons_self
    obtain ⟨q, hq⟩ : ∃ q, p.queue.finish r.1 = some q :=
      ⟨_, WorkQueue.finish_eq_some.2 ⟨List.mem_map_of_mem hm, rfl⟩⟩
    by_cases ht : throws r.2.2
    · exact ⟨_, .throw hm ht hq⟩
    · exact ⟨_, .finish hm ht hq⟩
  | nil =>
    cases hidle : p.queue.idle with
    | cons worker idle =>
      cases hpop : p.queue.waiting.pop? with
      | none =>
        exact ⟨_, .leave (hidle ▸ List.mem_cons_self) hc ((Fifo.pop?_eq_none_iff _).1 hpop)⟩
      | some popped =>
        exact ⟨_, .take (.refl _) (WorkQueue.take_eq_some.2
          ⟨worker, idle, popped.1, popped.2, hidle, hpop, rfl⟩)⟩
    | nil =>
      have hjoined := h.joined_le
      have hne : p.joined ≠ n := fun he => hr ⟨hc, he.trans h.workers.symm⟩
      rw [hrunning, hidle] at hlength
      simp only [List.length_nil] at hlength
      have hmem : p.joined ∈ List.range n := List.mem_range.2 (by omega)
      have hended := h.staff.symm.subset hmem
      rw [hrunning, hidle] at hended
      exact ⟨_, .join hc (by simpa using hended)⟩

theorem Step.not_ended (h : Step throws p p') (ho : p.Orderly throws n) {worker : Nat}
    {job : Nat × ι} (hr : (worker, job) ∈ p.queue.running) : worker ∉ p'.ended := by
  have hnodup := ho.staff.nodup_iff.2 List.nodup_range
  have hat : worker ∈ p.queue.running.map Prod.fst := List.mem_map_of_mem hr
  have hnot : worker ∉ p.ended := fun he =>
    List.disjoint_of_nodup_append hnodup (List.mem_append_right _ hat) he
  cases h with
  | leave hi _ _ =>
    rw [List.mem_cons, not_or]
    refine ⟨?_, hnot⟩
    rintro rfl
    exact List.disjoint_of_nodup_append hnodup.of_append_left hi hat
  | _ => exact hnot

end StaffedQueue

open StaffedQueue

/-- In whatever order owner and workers come, and whichever jobs are thrown out: the jobs are
started in the order of submission and each at most once; every started job is running or finished,
and no more are running than there are workers; every worker is free, at work or ended, and none
ends from its work or before the queue is closed and empty.  When the owner is done, every job was
started and finished once.  A closed queue comes to that: until then there is a step, and each step
leaves less to do. -/
theorem jobs_run_in_turn {ι : Type} (throws : ι → Prop) (workers : Nat) (p : StaffedQueue ι)
    (h : Reaches throws (.start workers) p) :
    (p.started <+: p.submitted ∧ p.started.Nodup) ∧
    ((p.running ++ p.finished).Perm p.started ∧ p.running.length ≤ max 1 workers) ∧
    ((p.queue.idle ++ p.queue.running.map Prod.fst ++ p.ended).Perm
        (List.range (max 1 workers)) ∧
      (∀ worker job p', (worker, job) ∈ p.queue.running → Step throws p p' →
        worker ∉ p'.ended) ∧
      (p.ended ≠ [] → p.queue.closed ∧ p.started = p.submitted)) ∧
    (∀ job, job ∈ p.reported ↔ job ∈ p.finished ∧ throws job.2) ∧
    (p.Returned → p.started = p.submitted ∧ p.finished.Perm p.submitted) ∧
    (p.queue.closed → (∀ p', Step throws p p' → p'.left < p.left) ∧
      (¬ p.Returned → ∃ p', Step throws p p')) := by
  have ho : p.Orderly throws (max 1 workers) := Reaches.orderly h (start_orderly workers)
  have hnumbers : p.submitted.Nodup := by
    refine List.Nodup.of_map Prod.fst ?_
    rw [ho.numbered]
    exact List.nodup_range
  have hstarted : p.started <+: p.submitted := ⟨_, ho.jobs⟩
  have hall (hw : p.queue.waiting.toList = []) : p.started = p.submitted := by
    rw [← ho.jobs, hw, List.append_nil]
  refine ⟨⟨hstarted, hnumbers.sublist hstarted.sublist⟩, ⟨ho.runs, ?_⟩,
    ⟨ho.staff, fun worker job p' hr hs => hs.not_ended ho hr,
      fun he => ⟨(ho.ended he).1, hall (ho.ended he).2⟩⟩, ho.reported, fun hr => ?_,
    fun hc => ⟨fun p' hs => hs.left_lt ho hc, ho.exists_step hc⟩⟩
  · have hlength := ho.staff_length
    rw [running, List.length_map]
    omega
  · obtain ⟨hrunning, hwaiting⟩ := ho.returned (by omega) hr
    have hruns := ho.runs
    rw [running, hrunning, hall hwaiting] at hruns
    exact ⟨hall hwaiting, hruns⟩

/-- Two workers that are done with three jobs, the second of which was thrown out. -/
def thrownQueue : StaffedQueue Char where
  queue :=
    { workers := 2, idle := [], closed := true
      history := [(0, 2, 'c'), (0, 1, 'b'), (1, 0, 'a')] }
  submitted := [(0, 'a'), (1, 'b'), (2, 'c')]
  finished := [(2, 'c'), (0, 'a'), (1, 'b')]
  reported := [(1, 'b')]
  ended := [0, 1]
  joined := 2

theorem reaches_thrown : Reaches (· = 'b') (.start 2) thrownQueue := by
  refine .head (.submit 'a' rfl) (.head (.submit 'b' rfl) ?_)
  refine .head (.take (.swap 0 1 []) rfl) (.head (.take (.refl _) rfl) ?_)
  refine .head (.throw List.mem_cons_self rfl rfl) ?_
  -- the queue is closed with the third job in it
  refine .head (.submit 'c' rfl) (.head (.close rfl) (.head (.take (.refl _) rfl) ?_))
  refine .head (.finish (List.mem_cons_of_mem _ List.mem_cons_self) (by decide) rfl) ?_
  refine .head (.leave List.mem_cons_self rfl rfl) ?_
  refine .head (.finish List.mem_cons_self (by decide) rfl) ?_
  refine .head (.leave List.mem_cons_self rfl rfl) ?_
  exact .head (.join rfl (by decide)) (.head (.join rfl (by decide)) .refl)

theorem jobs_run_in_turn_thrown :
    Reaches (· = 'b') (.start 2) thrownQueue ∧ thrownQueue.Returned ∧
    thrownQueue.started = [(0, 'a'), (1, 'b'), (2, 'c')] ∧
    thrownQueue.finished.Perm [(0, 'a'), (1, 'b'), (2, 'c')] := by
  have hreturned : thrownQueue.Returned := ⟨rfl, rfl⟩
  obtain ⟨_, _, _, _, hdone, _⟩ := jobs_run_in_turn (· = 'b') 2 thrownQueue reaches_thrown
  exact ⟨reaches_thrown, hreturned, hdone hreturned⟩

end ModuleLens
