import ModuleLens.Proofs.WorkQueue

/-! Working off a queue in rounds.  In a round all workers come back and then take what they can.
This is one of the orders in which owner and workers may come, and there are as many rounds as it
takes: in the end every job that was submitted is done. -/

namespace ModuleLens

namespace WorkQueue

variable {ι : Type}

theorem finish_all (workers : List Nat) (q : WorkQueue ι) :
    (workers.foldl (fun q w => (q.finish w).getD q) q).running =
        q.running.filter (fun r => r.1 ∉ workers) ∧
      (workers.foldl (fun q w => (q.finish w).getD q) q).waiting = q.waiting := by
  induction workers generalizing q with
  | nil => simp
  | cons w workers ih =>
    obtain ⟨hrunning, hwaiting⟩ := ih ((q.finish w).getD q)
    rw [List.foldl_cons, hrunning, hwaiting]
    cases hf : q.finish w with
    | some q' =>
      obtain ⟨_, rfl⟩ := finish_eq_some.1 hf
      refine ⟨?_, rfl⟩
      simp only [Option.getD_some, List.filter_filter]
      refine List.filter_congr fun r _ => ?_
      by_cases hr : r.1 = w <;> simp [hr]
    | none =>
      -- a worker that runs nothing has nothing to come back from
      have hnone : ∀ r ∈ q.running, r.1 ≠ w := by
        rintro r hr rfl
        have hsome := finish_eq_some.2 ⟨List.mem_map_of_mem hr, rfl⟩
        rw [hf] at hsome
        cases hsome
      refine ⟨List.filter_congr fun r hr => ?_, rfl⟩
      simp [hnone r hr]

theorem running_finishAll (q : WorkQueue ι) : q.finishAll.running = [] := by
  rw [finishAll, (finish_all _ q).1, List.filter_eq_nil_iff]
  intro r hr
  simpa using ⟨r.2, hr⟩

theorem waiting_finishAll (q : WorkQueue ι) : q.finishAll.waiting = q.waiting :=
  (finish_all _ q).2

theorem take_all_le (rounds : List Nat) (q : WorkQueue ι) :
    (rounds.foldl (fun q _ => q.take.getD q) q).waiting.toList.length ≤
      q.waiting.toList.length := by
  induction rounds generalizing q with
  | nil => exact Nat.le_refl _
  | cons _ rounds ih =>
    refine Nat.le_trans (ih (q.take.getD q)) ?_
    cases ht : q.take with
    | none => exact Nat.le_refl _
    | some q' =>
      obtain ⟨_, _, _, _, _, hpop, rfl⟩ := take_eq_some.1 ht
      rw [Option.getD_some, Fifo.toList_of_pop? hpop]
      exact Nat.le_succ _

theorem take_all_lt {q : WorkQueue ι} (hw : q.waiting.toList ≠ []) (hi : q.idle ≠ [])
    (hn : 0 < q.workers) : q.takeAll.waiting.toList.length < q.waiting.toList.length := by
  obtain ⟨worker, idle, hidle⟩ := List.exists_cons_of_ne_nil hi
  obtain ⟨n, hn⟩ := Nat.exists_eq_succ_of_ne_zero (Nat.pos_iff_ne_zero.1 hn)
  cases hpop : q.waiting.pop? with
  | none => exact absurd ((Fifo.pop?_eq_none_iff _).1 hpop) hw
  | some popped =>
    have htake := take_eq_some.2 ⟨worker, idle, popped.1, popped.2, hidle, hpop, rfl⟩
    have hlen := congrArg List.length (Fifo.toList_of_pop? hpop)
    rw [List.length_cons] at hlen
    rw [takeAll, hn, List.range_succ_eq_map, List.foldl_cons, htake]
    refine Nat.lt_of_le_of_lt (take_all_le _ _) ?_
    simp only [Option.getD_some]
    omega

theorem submitAll_of_closed {q : WorkQueue ι} (h : q.closed) (jobs : List ι) :
    q.submitAll jobs = q := by
  induction jobs with
  | nil => rfl
  | cons job jobs ih =>
    rw [submitAll, List.foldl_cons, submit, if_pos h]
    exact ih

end WorkQueue

namespace StaffedQueue

variable {ι : Type} {throws : ι → Prop} {n : Nat} {p : StaffedQueue ι}

/-- What a function makes of the queue is what some steps make of it. -/
def Lands (throws : ι → Prop) (f : WorkQueue (Nat × ι) → WorkQueue (Nat × ι)) : Prop :=
  ∀ p : StaffedQueue ι, ∃ p', Reaches throws p p' ∧ p'.queue = f p.queue

theorem lands_foldl {α : Type} {f : WorkQueue (Nat × ι) → α → WorkQueue (Nat × ι)}
    (h : ∀ a, Lands throws fun q => f q a) (as : List α) :
    Lands throws fun q => as.foldl f q := by
  intro p
  induction as generalizing p with
  | nil => exact ⟨p, .refl, rfl⟩
  | cons a as ih =>
    obtain ⟨p₁, hrun, hqueue⟩ := h a p
    obtain ⟨p₂, hrun', hqueue'⟩ := ih p₁
    exact ⟨p₂, hrun.trans hrun', hqueue'.trans (congrArg (as.foldl f) hqueue)⟩

theorem lands_take : Lands throws fun q => q.take.getD q := by
  intro p
  cases ht : p.queue.take with
  | none => exact ⟨p, .refl, (congrArg (Option.getD · p.queue) ht).symm⟩
  | some q => exact ⟨_, .single (.take (.refl _) ht), (congrArg (Option.getD · p.queue) ht).symm⟩

theorem lands_finish (worker : Nat) : Lands throws fun q => (q.finish worker).getD q := by
  intro p
  cases hf : p.queue.finish worker with
  | none => exact ⟨p, .refl, (congrArg (Option.getD · p.queue) hf).symm⟩
  | some q =>
    have hqueue : q = (p.queue.finish worker).getD p.queue :=
      (congrArg (Option.getD · p.queue) hf).symm
    obtain ⟨⟨_, job⟩, hm, rfl⟩ := List.mem_map.1 (WorkQueue.finish_eq_some.1 hf).1
    by_cases ht : throws job.2
    · exact ⟨_, .single (.throw hm ht hf), hqueue⟩
    · exact ⟨_, .single (.finish hm ht hf), hqueue⟩

theorem lands_finishAll : Lands throws WorkQueue.finishAll :=
  fun p => lands_foldl lands_finish (p.queue.running.map Prod.fst) p

theorem lands_takeAll : Lands throws WorkQueue.takeAll :=
  fun p => lands_foldl (fun _ => lands_take) (List.range p.queue.workers) p

/-- A round leaves fewer jobs in a queue that holds some: as they wait, no worker has ended. -/
theorem Orderly.round (h : p.Orderly throws n) (hn : 0 < n) :
    ∃ p', Reaches throws p p' ∧ p'.queue = p.queue.finishAll.takeAll ∧
      p'.queue.waiting.toList.length ≤ p.queue.waiting.toList.length - 1 := by
  obtain ⟨p₁, hrun, hqueue⟩ := lands_finishAll p
  obtain ⟨p₂, hrun', hqueue'⟩ := lands_takeAll p₁
  refine ⟨p₂, hrun.trans hrun', by rw [hqueue', hqueue], ?_⟩
  have ho := Reaches.orderly hrun h
  have hwaiting : p₁.queue.waiting = p.queue.waiting := by
    rw [hqueue, WorkQueue.waiting_finishAll]
  rw [hqueue', ← hwaiting]
  by_cases hempty : p₁.queue.waiting.toList = []
  · have hle : p₁.queue.takeAll.waiting.toList.length ≤ p₁.queue.waiting.toList.length :=
      WorkQueue.take_all_le _ _
    rw [hempty] at hle ⊢
    exact hle
  · have hended : p₁.ended = [] := by
      by_contra hne
      exact hempty (ho.ended hne).2
    have hlength := ho.staff_length
    have hrunning : p₁.queue.running = [] := by rw [hqueue, WorkQueue.running_finishAll]
    rw [hrunning, hended] at hlength
    simp only [List.length_nil, Nat.add_zero] at hlength
    have hidle : p₁.queue.idle ≠ [] := List.ne_nil_of_length_pos (by omega)
    exact Nat.le_sub_one_of_lt (WorkQueue.take_all_lt hempty hidle (ho.workers ▸ hn))

theorem Orderly.rounds (h : p.Orderly throws n) (hn : 0 < n) (rounds : List Nat)
    (hr : p.queue.waiting.toList.length ≤ rounds.length) :
    ∃ p', Reaches throws p p' ∧
      p'.queue = rounds.foldl (fun q _ => q.finishAll.takeAll) p.queue ∧
      p'.queue.waiting.toList = [] := by
  induction rounds generalizing p with
  | nil => exact ⟨p, .refl, rfl, List.eq_nil_of_length_eq_zero (Nat.le_zero.1 hr)⟩
  | cons _ rounds ih =>
    obtain ⟨p₁, hrun, hqueue, hless⟩ := h.round hn
    rw [List.length_cons] at hr
    obtain ⟨p₂, hrun', hqueue', hempty⟩ := ih (Reaches.orderly hrun h) (by omega)
    exact ⟨p₂, hrun.trans hrun', by rw [hqueue', hqueue, List.foldl_cons], hempty⟩

/-- Submitting some jobs at once is submitting them one by one; a closed queue takes none. -/
theorem exists_submitted (throws : ι → Prop) (jobs : List ι) (p : StaffedQueue ι) :
    ∃ p', Reaches throws p p' ∧
      p'.queue = p.queue.submitAll ((jobs.zipIdx p.submitted.length).map Prod.swap) := by
  induction jobs generalizing p with
  | nil => exact ⟨p, .refl, rfl⟩
  | cons job jobs ih =>
    cases hc : p.queue.closed with
    | true => exact ⟨p, .refl, (WorkQueue.submitAll_of_closed hc _).symm⟩
    | false =>
      let q := { p.queue with waiting := p.queue.waiting.push (p.submitted.length, job) }
      have hs : p.queue.submit (p.submitted.length, job) = some q :=
        WorkQueue.submit_eq_some.2 ⟨hc, rfl⟩
      obtain ⟨p', hrun, hqueue⟩ :=
        ih { p with queue := q, submitted := p.submitted ++ [(p.submitted.length, job)] }
      refine ⟨p', .head (.submit job hs) hrun, hqueue.trans ?_⟩
      rw [List.zipIdx_cons, List.map_cons, WorkQueue.submitAll, WorkQueue.submitAll,
        List.foldl_cons, Prod.swap_prod_mk, hs, Option.getD_some, List.length_append,
        List.length_singleton]

/-- Working off a queue in rounds is one of the orders of steps, and every job is done at its end,
whichever of them are thrown out. -/
theorem exists_drained (throws : ι → Prop) (workers : Nat) (p : StaffedQueue ι)
    (h : Reaches throws (.start workers) p) :
    ∃ p', Reaches throws p p' ∧ p'.queue = p.queue.drain ∧ p'.started = p'.submitted ∧
      p'.finished.Perm p'.submitted := by
  have hn : 0 < max 1 workers := by omega
  have ho : p.Orderly throws (max 1 workers) := Reaches.orderly h (start_orderly workers)
  obtain ⟨p₁, hrun, hqueue, hempty⟩ := ho.rounds hn (List.range (p.queue.waiting.size + 1))
    (by rw [List.length_range, Fifo.length_toList]; exact Nat.le_succ _)
  obtain ⟨p₂, hrun', hqueue'⟩ := lands_finishAll p₁
  have hreach : Reaches throws p p₂ := hrun.trans hrun'
  have ho' := Reaches.orderly hreach ho
  have hwaiting : p₂.queue.waiting.toList = [] := by
    rw [hqueue', WorkQueue.waiting_finishAll, hempty]
  have hrunning : p₂.running = [] := by
    rw [running, hqueue', WorkQueue.running_finishAll]
    rfl
  have hstarted : p₂.started = p₂.submitted := by
    rw [← ho'.jobs, hwaiting, List.append_nil]
  have hruns := ho'.runs
  rw [hrunning, hstarted] at hruns
  exact ⟨p₂, hreach, by rw [hqueue', hqueue]; rfl, hstarted, hruns⟩

end StaffedQueue

end ModuleLens
