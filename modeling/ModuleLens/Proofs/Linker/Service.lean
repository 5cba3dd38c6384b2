import ModuleLens.Proofs.Linker.Schedules
import ModuleLens.Proofs.Linker.Solo

/-! Calls that are served one at a time.  A linker that is quiet has no pending slot and no one who
waits.  Then every job that a worker starts comes to its reply at once, every wait of the calling
thread ends with a reply, and the linker is quiet again when the call returns.  What it does on the
way is one of the interleavings of calling thread and workers, and one in which nothing goes
wrong. -/

namespace ModuleLens

open Node

namespace Crew

variable {env : ImportEnv}

theorem calmly_call {deed : Deed} {a a' : Caller} {l l' : Linker}
    (h : Caller.Step env deed a l a' l') (hc : deed.isCalm) :
    Calmly env ⟨l, [], [a]⟩ ⟨l', [], [a']⟩ :=
  Step.calmly (.call [] [] [] h) hc

theorem calmly_work {e e' : Errand (Outcome Node)} {l l' : Linker} {deeds : List Deed}
    (h : Errand.Walk env e l deeds e' l') (hd : ∀ deed ∈ deeds, deed.isCalm) (ticket : Nat)
    (callers : List Caller) :
    Calmly env ⟨l, [⟨ticket, e⟩], callers⟩ ⟨l', [⟨ticket, e'⟩], callers⟩ := by
  induction h with
  | refl => exact .refl _
  | tail _ s ih =>
    exact (ih fun d hm => hd d (List.mem_cons_of_mem _ hm)).tail (.work ticket [] [] callers s)
      (hd _ List.mem_cons_self)

theorem calmly_follow {e e' : Errand (Outcome Node)} {l l' : Linker} {deeds : List Deed}
    (h : Errand.Walk env e l deeds e' l') (hd : ∀ deed ∈ deeds, deed.isCalm)
    {place : Errand (Outcome Node) → Caller}
    (hp : ∀ {deed d d' m m'}, Errand.Step env deed d m d' m' →
      Caller.Step env deed (place d) m (place d') m') :
    Calmly env ⟨l, [], [place e]⟩ ⟨l', [], [place e']⟩ := by
  induction h with
  | refl => exact .refl _
  | tail _ s ih =>
    exact (ih fun d hm => hd d (List.mem_cons_of_mem _ hm)).trans
      (calmly_call (hp s) (hd _ List.mem_cons_self))

end Crew

open Crew

namespace Linker

variable {env : ImportEnv}

/-- A linker without a pending slot and without anyone who waits. -/
structure Quiet (l : Linker) : Prop where
  coherent : l.Coherent
  waiting : l.waiting = []
  idle : 0 < l.idle
  clear : ∀ k, l.modules.get? k ≠ some .pending
  replies : ∀ {t : Nat} {r}, l.replies[t]? = some r → t < l.tickets ∧ ∃ o, r = some o

theorem quiet_ofWorkers {workers : Nat} (h : 0 < workers) : (ofWorkers workers).Quiet :=
  ⟨coherent_empty rfl, rfl, h, fun k hk => (nomatch hk), fun ht => by simp [ofWorkers] at ht⟩

theorem Quiet.congr {l l' : Linker} (h : l.Quiet) (hm : l'.modules = l.modules)
    (hd : l.drafts ≤ l'.drafts) (hw : l'.waiting = l.waiting) (hi : l'.idle = l.idle)
    (hr : l'.replies = l.replies) (ht : l.tickets ≤ l'.tickets) : l'.Quiet := by
  refine ⟨h.coherent.of_modules hm hd, hw.trans h.waiting, hi ▸ h.idle, fun k => hm ▸ h.clear k,
    fun {t r} hget => ?_⟩
  obtain ⟨hlt, ho⟩ := h.replies (hr ▸ hget)
  exact ⟨Nat.lt_of_lt_of_le hlt ht, ho⟩

theorem Quiet.rests {l : Linker} (h : l.Quiet) (depth : Nat) : l.Rests depth :=
  fun k hk => (h.clear k hk).elim

theorem Quiet.forget {l : Linker} (h : l.Quiet) (uri : Uri) : (l.forget uri).Quiet :=
  ⟨h.coherent.forget uri, h.waiting, h.idle,
    fun k hk => h.clear k ((SharedStore.get?_prune_eq_pending h.coherent.distinct).1 hk),
    h.replies⟩

/-- Every job from `first` on is in the queue or has its reply, and the modules in these replies are
stored. -/
structure Owes (env : ImportEnv) (first : Nat) (l : Linker) : Prop where
  jobs : ∀ job ∈ l.queue, job.ticket < l.tickets ∧
    ∃ document edge, job.errand = .follow env.maxDepth document 0 edge
  due : ∀ t, first ≤ t → t < l.tickets →
    (∃ job ∈ l.queue, job.ticket = t) ∨ l.replies.contains t
  paid : ∀ {t o}, first ≤ t → l.replies[t]? = some (some o) → l.Keeps o

/-- What callers and workers do in a while in which they are not disturbed. -/
structure Advance (env : ImportEnv) (first : Nat) (cs cs' : List Caller) (l l' : Linker) :
    Prop where
  quiet : l'.Quiet
  owes : l'.Owes env first
  grows : l.Grows env l'
  tickets : l'.tickets = l.tickets
  run : Calmly env ⟨l, [], cs⟩ ⟨l', [], cs'⟩

theorem Advance.refl {first : Nat} {l : Linker} (hq : l.Quiet) (ho : l.Owes env first)
    (cs : List Caller) : Advance env first cs cs l l :=
  ⟨hq, ho, .refl env l, rfl, .refl _⟩

theorem Advance.trans {first : Nat} {as bs cs : List Caller} {a b c : Linker}
    (h : Advance env first as bs a b) (h' : Advance env first bs cs b c) :
    Advance env first as cs a c :=
  ⟨h'.quiet, h'.owes, h.grows.trans h'.grows, h'.tickets.trans h.tickets, h.run.trans h'.run⟩

/-- Following an import where no one waits: it comes to an outcome, step by step, and touches the
store, the drafts and the calls only. -/
theorem run_follow (hr : env.Regular) {l : Linker} (hc : l.Coherent) {depth : Nat}
    (hl : l.Rests depth) (importing : Document) (edge : ImportEdge) :
    ∃ o m, run env alone (.follow env.maxDepth importing depth edge) l = (.finished (some o), m) ∧
      m.Coherent ∧ l.Grows env m ∧ m.Keeps o ∧
      (m.queue = l.queue ∧ m.tickets = l.tickets ∧ m.waiting = l.waiting ∧ m.idle = l.idle ∧
        m.replies = l.replies) ∧
      ∃ deeds, (∀ deed ∈ deeds, deed.isCalm) ∧
        Errand.Walk env (.follow env.maxDepth importing depth edge) l deeds
          (.finished (some o)) m := by
  let e := Errand.follow env.maxDepth importing depth edge
  obtain ⟨o, m, hrun, hcm, hg, hkeep⟩ := ends_follow hr importing depth edge l hc hl
  obtain ⟨modules, drafts, calls, hm⟩ := run_frame env e l
  have hwalk := run_walk env e l
  rw [hrun] at hm hwalk
  change m = _ at hm
  refine ⟨o, m, hrun, hcm, hg, hkeep, ?_, hwalk⟩
  rw [hm]
  exact ⟨rfl, rfl, rfl, rfl, rfl⟩

theorem Quiet.replied {l m : Linker} (h : l.Quiet) (hc : m.Coherent)
    (hp : ∀ k, m.modules.get? k ≠ some .pending) (hw : m.waiting = l.waiting)
    (ht : m.tickets = l.tickets) (hr : m.replies = l.replies) {ticket : Nat}
    (hlt : ticket < l.tickets) (o : Outcome Node) :
    Quiet { m with idle := m.idle + 1, replies := m.replies.insert ticket (some o) } := by
  refine ⟨hc.of_modules rfl (Nat.le_refl _), hw.trans h.waiting, Nat.succ_pos _, hp,
    fun {t r} hget => ?_⟩
  change t < m.tickets ∧ _
  rw [ht]
  by_cases he : ticket = t
  · subst he
    have hr : some o = r := by simpa using hget
    exact ⟨hlt, o, hr.symm⟩
  · exact h.replies (by simpa [Std.TreeMap.getElem?_insert, he, hr] using hget)

theorem Owes.replied {first : Nat} {l m : Linker} (h : l.Owes env first) (hg : l.Grows env m)
    (ht : m.tickets = l.tickets) (hr : m.replies = l.replies) {ticket : Nat}
    {e : Errand (Outcome Node)} (hq : l.queue = ⟨ticket, e⟩ :: m.queue) {o : Outcome Node}
    (ho : m.Keeps o) :
    Owes env first
      { m with idle := m.idle + 1, replies := m.replies.insert ticket (some o) } := by
  refine ⟨fun job hj => ?_, fun t hf hlt => ?_, fun {t o'} hf hget => ?_⟩
  · change job.ticket < m.tickets ∧ _
    rw [ht]
    exact h.jobs job (hq ▸ List.mem_cons_of_mem _ hj)
  · rcases h.due t hf (ht ▸ hlt) with ⟨job, hj, he⟩ | hc
    · rw [hq] at hj
      rcases List.mem_cons.1 hj with rfl | hj
      · exact .inr (by simp [← he])
      · exact .inl ⟨job, hj, he⟩
    · exact .inr (by simp [Std.TreeMap.contains_insert, hr, hc])
  · by_cases he : ticket = t
    · subst he
      have hoo : o = o' := by simpa using hget
      exact hoo ▸ ho
    · exact hg.keeps (h.paid hf (by simpa [Std.TreeMap.getElem?_insert, he, hr] using hget))

theorem start_advance (hr : env.Regular) {first : Nat} {l : Linker} (hq : l.Quiet)
    (ho : l.Owes env first) {job : Job} {rest : List Job} (hj : l.queue = job :: rest)
    (cs : List Caller) : Advance env first cs cs l (l.start env job rest) := by
  obtain ⟨ticket, errand⟩ := job
  obtain ⟨hticket, document, edge, rfl⟩ := ho.jobs _ (hj ▸ List.mem_cons_self)
  let l₁ : Linker := { l with idle := l.idle - 1, queue := rest }
  have hc₁ : l₁.Coherent := hq.coherent.of_modules rfl (Nat.le_refl _)
  obtain ⟨o, m, hrun, hcm, hg, hkeep, ⟨hmqueue, hmtickets, hmwaiting, _, hmreplies⟩, deeds, hcalm,
    hwalk⟩ := run_follow hr hc₁ (hq.rests 0) document edge
  have hmqueue : m.queue = rest := hmqueue
  have hs : l.start env ⟨ticket, .follow env.maxDepth document 0 edge⟩ rest =
      { m with idle := m.idle + 1, replies := m.replies.insert ticket (some o) } := by
    have hw : work env ticket (.follow env.maxDepth document 0 edge) l₁ = (none,
        { m with idle := m.idle + 1, replies := m.replies.insert ticket (some o) }) := by
      rw [work, show run env (fun _ _ => none) _ l₁ = _ from hrun]
    rw [start, hw]
    simp only [Option.toList_none, List.nil_append]
    rw [← hmqueue, ← show m.waiting = l.waiting from hmwaiting]
  have hgl : l.Grows env m := hg.congr rfl rfl (Nat.le_refl _) (Nat.le_refl _)
  rw [hs]
  refine ⟨hq.replied hcm (fun k hk => hq.clear k (hgl.pending.1 hk)) hmwaiting hmtickets hmreplies
    hticket o, ho.replied hgl hmtickets hmreplies (hmqueue ▸ hj) hkeep,
    hgl.congr rfl rfl (Nat.le_refl _) (Nat.le_refl _), hmtickets, ?_⟩
  -- the worker takes the job, does its errand to the end and replies
  have htake : Crew.Step env .quiet ⟨l, [], cs⟩
      ⟨l₁, [⟨ticket, .follow env.maxDepth document 0 edge⟩], cs⟩ := .take [] cs hq.idle hj
  have hwork := calmly_work hwalk hcalm ticket cs
  exact ((htake.calmly rfl).trans hwork).tail (.reply m ticket (some o) [] [] cs) rfl

/-- The workers empty the queue job by job, unless they are stopped. -/
theorem letRun_advance (hr : env.Regular) (stop : Linker → Bool) (limit : Nat) {first : Nat}
    {l : Linker} (hq : l.Quiet) (ho : l.Owes env first) (cs : List Caller) :
    Advance env first cs cs l (letRun env stop limit l) ∧
      (stop (letRun env stop limit l) ∨ (letRun env stop limit l).queue = []) := by
  have nowhere {l : Linker} (hq : l.Quiet) (i : Fin l.waiting.length) : False := by
    have hi := i.isLt
    simp [hq.waiting] at hi
  fun_induction letRun env stop limit l with
  | case1 l hs => exact ⟨.refl hq ho cs, .inl hs⟩
  | case2 l _ i _ ih => exact (nowhere hq i).elim
  | case3 l _ _ job rest hready _ ih =>
    have hj : l.queue = job :: rest := by
      rw [ready, if_pos hq.idle] at hready
      exact hready
    have ha := start_advance hr hq ho hj cs
    obtain ⟨hh, hend⟩ := ih ha.quiet ha.owes
    exact ⟨ha.trans hh, hend⟩
  | case4 l _ _ _ i _ ih => exact (nowhere hq i).elim
  | case5 l _ _ hready _ =>
    rw [ready, if_pos hq.idle] at hready
    exact ⟨.refl hq ho cs, .inr hready⟩

theorem settle_advance (hr : env.Regular) {first : Nat} {l : Linker} (hq : l.Quiet)
    (ho : l.Owes env first) (cs : List Caller) :
    Advance env first cs cs l (l.settle env) ∧ (l.settle env).queue = [] := by
  obtain ⟨ha, hend⟩ := letRun_advance hr (fun _ => false) 0 hq ho cs
  exact ⟨ha, hend.resolve_left Bool.false_ne_true⟩

theorem awaitReply_advance (hr : env.Regular) {first ticket : Nat} {l : Linker} (hq : l.Quiet)
    (ho : l.Owes env first) (hf : first ≤ ticket) (ht : ticket < l.tickets) {entry : EntryBuild}
    {r : Request} {rest : Tickets} (rs : List Request)
    (htake : takeTicket entry.tickets r.edge = some (ticket, rest)) :
    ∃ o l', l.awaitReply env ticket = (o, l') ∧ l'.Keeps o ∧
      l'.replies[ticket]? = some (some o) ∧
      Advance env first [.collecting entry (r :: rs)] [.collecting entry (r :: rs)] l l' := by
  let l₁ : Linker := { l with waits := l.waits + 1 }
  have hq₁ : l₁.Quiet := hq.congr rfl (Nat.le_refl _) rfl rfl rfl (Nat.le_refl _)
  have ho₁ : l₁.Owes env first := ⟨ho.jobs, ho.due, ho.paid⟩
  have hwait : Advance env first [.collecting entry (r :: rs)] [.collecting entry (r :: rs)] l l₁ :=
    ⟨hq₁, ho₁, (Grows.refl env l).congr rfl rfl (Nat.le_refl _) (Nat.le_refl _), rfl,
      calmly_call (.wait rs l htake) rfl⟩
  obtain ⟨ha, hend⟩ := letRun_advance hr (fun l => l.replies.contains ticket) l.waits hq₁ ho₁
    [.collecting entry (r :: rs)]
  let l₂ := l.await env fun l => l.replies.contains ticket
  change Advance env first _ _ l₁ l₂ at ha
  change l₂.replies.contains ticket ∨ l₂.queue = [] at hend
  -- with the queue empty, what was due from its jobs has been paid
  have hc : l₂.replies.contains ticket := by
    rcases hend with hc | he
    · exact hc
    · rcases ha.owes.due ticket hf (ha.tickets ▸ ht) with ⟨job, hj, _⟩ | hc
      · simp [he] at hj
      · exact hc
  obtain ⟨reply, hget⟩ := Option.isSome_iff_exists.1
    (Std.TreeMap.isSome_getElem?_eq_contains.trans hc)
  obtain ⟨_, o, rfl⟩ := ha.quiet.replies hget
  refine ⟨o, l₂, ?_, ha.owes.paid hf hget, hget, hwait.trans ha⟩
  have hget : (l.await env fun l => l.replies.contains ticket).replies[ticket]? = some (some o) :=
    hget
  simp only [awaitReply, hget]
  rfl

theorem perform_advance (hr : env.Regular) {first : Nat} {l : Linker} (hq : l.Quiet)
    (ho : l.Owes env first) (importing : Document) (depth : Nat) (edge : ImportEdge)
    {place : Errand (Outcome Node) → Caller}
    (hp : ∀ {deed d d' m m'}, Errand.Step env deed d m d' m' →
      Caller.Step env deed (place d) m (place d') m') :
    ∃ o l', l.perform env (.follow env.maxDepth importing depth edge) = (.done o, l') ∧
      l'.Keeps o ∧ l'.queue = l.queue ∧
      Advance env first [place (.follow env.maxDepth importing depth edge)]
        [place (.finished (some o))] l l' := by
  obtain ⟨o, m, hrun, hcm, hg, hkeep, ⟨hmqueue, hmtickets, hmwaiting, hmidle, hmreplies⟩, deeds,
    hcalm, hwalk⟩ := run_follow hr hq.coherent (hq.rests depth) importing edge
  refine ⟨o, m, ?_, hkeep, hmqueue, ⟨hcm, hmwaiting.trans hq.waiting, hmidle ▸ hq.idle,
    fun k hk => hq.clear k (hg.pending.1 hk), fun {t r} ht => ?_⟩, ⟨?_, ?_, fun {t o'} hf ht => ?_⟩,
    hg, hmtickets, calmly_follow hwalk hcalm hp⟩
  · rw [perform, run_of_alone hrun]
  · rw [hmtickets]
    exact hq.replies (hmreplies ▸ ht)
  · rw [hmqueue, hmtickets]
    exact ho.jobs
  · rw [hmqueue, hmtickets, hmreplies]
    exact ho.due
  · exact hg.keeps (ho.paid hf (hmreplies ▸ ht))

theorem collect_advance (hr : env.Regular) {first : Nat} (rs : List Request) (entry : EntryBuild)
    {l : Linker} (hq : l.Quiet) (ho : l.Owes env first)
    (ht : ∀ edge, ∀ t ∈ entry.tickets.getD edge [], first ≤ t ∧ t < l.tickets)
    (ha : l.KeepsAll entry.answers) :
    ∃ answers tickets l',
      collect env entry.document entry.answers l entry.tickets rs = (.done answers, l') ∧
      l'.KeepsAll answers ∧
      Advance env first [.collecting entry rs] [.collecting { entry with tickets, answers } []]
        l l' := by
  induction rs generalizing entry l with
  | nil => exact ⟨entry.answers, entry.tickets, l, rfl, ha, .refl hq ho _⟩
  | cons r rs ih =>
    rw [collect, answer]
    cases htake : takeTicket entry.tickets r.edge with
    | some taken =>
      -- the import was announced: the reply to its job is waited for
      obtain ⟨ticket, rest⟩ := taken
      obtain ⟨hmem, hrest⟩ := takeTicket_eq_some htake
      obtain ⟨hf, hlt⟩ := ht r.edge ticket hmem
      obtain ⟨o, m, hrun, hkeep, hreply, hadv⟩ := awaitReply_advance hr hq ho hf hlt rs htake
      simp only [hrun]
      let entry' : EntryBuild :=
        { entry with tickets := rest, answers := entry.answers.insert r.index o }
      have hstep : Advance env first [.collecting entry (r :: rs)] [.collecting entry' rs] l m :=
        ⟨hadv.quiet, hadv.owes, hadv.grows, hadv.tickets,
          hadv.run.trans (calmly_call (.reply rs htake hreply) rfl)⟩
      obtain ⟨answers, tickets, l', hc, hall, hh⟩ := ih entry' hadv.quiet hadv.owes
        (fun edge t hm => hadv.tickets ▸ ht edge t (hrest edge t hm))
        ((hadv.grows.keepsAll ha).insert r.index hkeep)
      exact ⟨answers, tickets, l', hc, hall, hstep.trans hh⟩
    | none =>
      -- it was not: it is followed on the spot
      obtain ⟨o, m, hrun, hkeep, _, hadv⟩ :=
        perform_advance hr hq ho entry.document 0 r.edge (.follow entry r rs)
      simp only [hrun]
      let entry' : EntryBuild := { entry with answers := entry.answers.insert r.index o }
      have hstep : Advance env first [.collecting entry (r :: rs)] [.collecting entry' rs] l m :=
        ⟨hadv.quiet, hadv.owes, hadv.grows, hadv.tickets,
          (calmly_call (.inline rs l htake) rfl).trans
            (hadv.run.trans (calmly_call (.followed entry r rs o m) rfl))⟩
      obtain ⟨answers, tickets, l', hc, hall, hh⟩ := ih entry' hadv.quiet hadv.owes
        (fun edge t hm => hadv.tickets ▸ ht edge t hm)
        ((hadv.grows.keepsAll ha).insert r.index hkeep)
      exact ⟨answers, tickets, l', hc, hall, hstep.trans hh⟩

theorem calmly_announce (env : ImportEnv) (entry : EntryBuild) (edges : List ImportEdge)
    (numbered : List (ImportEdge × Nat)) (l : Linker) :
    Calmly env ⟨l, [], [.announcing entry edges numbered]⟩
      ⟨(l.announce env entry.document edges).2, [],
        [.announcing entry [] (numbered ++ edges.zipIdx l.tickets)]⟩ := by
  induction edges generalizing numbered l with
  | nil =>
    simp only [announce, List.zipIdx_nil, List.map_nil, List.append_nil, List.length_nil]
    exact .refl _
  | cons edge edges ih =>
    refine (calmly_call (.announce entry edge edges numbered l) rfl).trans ?_
    have hh := ih (numbered ++ [(edge, l.tickets)])
      { l with
        queue := l.queue ++ [⟨l.tickets, .follow env.maxDepth entry.document 0 edge⟩]
        tickets := l.tickets + 1 }
    simpa [announce, Nat.add_assoc, Nat.add_comm 1] using hh

abbrev entryOf (number : Nat) (tree : SyntaxTree) (document : Document) : Caller :=
  .announcing { tree, document, number } (tree.scan document.text) []

theorem owes_announce (env : ImportEnv) {l : Linker} (hq : l.Quiet) (he : l.queue = [])
    (document : Document) (edges : List ImportEdge) :
    (l.announce env document edges).2.Quiet ∧
      (l.announce env document edges).2.Owes env l.tickets := by
  refine ⟨hq.congr rfl (Nat.le_refl _) rfl rfl rfl (Nat.le_add_right _ _), fun job hj => ?_,
    fun t hf ht => .inl ?_, fun {t o} hf ht => ?_⟩
  · simp only [announce, he, List.nil_append, List.mem_map] at hj
    obtain ⟨⟨edge, t⟩, hm, rfl⟩ := hj
    have hlt := List.snd_lt_add_of_mem_zipIdx hm
    exact ⟨hlt, document, edge, rfl⟩
  · simp only [announce] at ht ⊢
    obtain ⟨i, rfl⟩ := Nat.exists_eq_add_of_le hf
    have hi : i < edges.length := by omega
    refine ⟨⟨l.tickets + i, .follow env.maxDepth document 0 (edges.get ⟨i, hi⟩)⟩, ?_, rfl⟩
    refine List.mem_append_right _ (List.mem_map.2 ⟨(edges.get ⟨i, hi⟩, l.tickets + i), ?_, rfl⟩)
    exact List.mk_add_mem_zipIdx_iff_getElem?.2 (List.getElem?_eq_getElem hi)
  · have hh := (hq.replies (show l.replies[t]? = _ from ht)).1
    omega

/-- Building an entry document comes to a module.  The modules behind its imports are stored, and
the linker is quiet again. -/
theorem buildEntryTree_spec (hr : env.Regular) {l : Linker} (hq : l.Quiet) (he : l.queue = [])
    (tree : SyntaxTree) (document : Document) :
    ∃ module l', l.buildEntryTree env tree document = (.done module, l') ∧
      l'.Quiet ∧ l'.queue = [] ∧ l.Grows env l' ∧
      Makes document 0 l.drafts l' (.module module) ∧
      Calmly env ⟨{ l with drafts := l.drafts + 1 }, [], [entryOf l.drafts tree document]⟩
        ⟨l', [], [.built tree document module]⟩ := by
  let l₀ : Linker := { l with drafts := l.drafts + 1 }
  have hq₀ : l₀.Quiet := hq.congr rfl (Nat.le_succ _) rfl rfl rfl (Nat.le_refl _)
  let edges := tree.scan document.text
  let l₁ := (l₀.announce env document edges).2
  obtain ⟨hq₁, ho₁⟩ := owes_announce env hq₀ he document edges
  let entry : EntryBuild :=
    { tree, document, number := l.drafts, tickets := ticketsOf (edges.zipIdx l.tickets) }
  have ht (edge : ImportEdge) (t : Nat) (hm : t ∈ entry.tickets.getD edge []) :
      l₀.tickets ≤ t ∧ t < l₁.tickets := by
    rw [getD_ticketsOf] at hm
    obtain ⟨n, hn, rfl⟩ := List.mem_map.1 hm
    have hz := (List.mem_filter.1 hn).1
    exact ⟨List.le_snd_of_mem_zipIdx hz, List.snd_lt_add_of_mem_zipIdx hz⟩
  -- the imports are announced, then collected, and then the workers finish what is left
  obtain ⟨answers, tickets, l₂, hcol, hall, hadv⟩ := collect_advance hr
    (draftModule l.drafts tree document 0).requests entry hq₁ ho₁ ht (keepsAll_empty l₁)
  let module := (draftModule l.drafts tree document 0).link answers
  obtain ⟨hset, hqueue⟩ := settle_advance hr hadv.quiet hadv.owes [.built tree document module]
  have hgrows : l.Grows env (l₂.settle env) := by
    have hh := hadv.grows.trans hset.grows
    exact hh.congr rfl rfl (Nat.le_succ l.drafts) (Nat.le_refl _)
  refine ⟨module, l₂.settle env, ?_, hset.quiet, hqueue, hgrows, ?_, ?_⟩
  · simp only [buildEntryTree]
    rw [show (l₀.announce env document edges) = (entry.tickets, l₁) from rfl]
    simp only
    rw [show collect env document {} l₁ entry.tickets _ = _ from hcol]
    rfl
  · exact makes_link (hset.grows.keepsAll hall)
  · have hann := calmly_announce env { tree, document, number := l.drafts } edges [] l₀
    refine hann.trans ((calmly_call (.collect _ (edges.zipIdx l.tickets) l₁) rfl).trans ?_)
    exact hadv.run.trans ((calmly_call (.link _ l₂) rfl).trans hset.run)

theorem follow_spec (hr : env.Regular) {l : Linker} (hq : l.Quiet) (he : l.queue = [])
    (importing : Document) (depth : Nat) (edge : ImportEdge) :
    ∃ o l', l.follow env importing depth edge = (.done o, l') ∧
      l'.Quiet ∧ l'.queue = [] ∧ l.Grows env l' ∧ l'.Keeps o ∧
      Calmly env
        ⟨l, [], [.resolving importing depth edge (.follow env.maxDepth importing depth edge)]⟩
        ⟨l', [], [.resolved importing depth edge o]⟩ := by
  have ho : l.Owes env l.tickets := by
    refine ⟨fun job hj => ?_, fun t hf ht => ?_, fun {t o} hf ht => ?_⟩
    · simp [he] at hj
    · omega
    · have hh := (hq.replies ht).1
      omega
  obtain ⟨o, m, hrun, hkeep, hmq, hadv⟩ := perform_advance hr hq ho importing depth edge
    (.resolve importing depth edge)
  obtain ⟨hset, hqueue⟩ := settle_advance hr hadv.quiet hadv.owes
    [.resolved importing depth edge o]
  refine ⟨o, m.settle env, ?_, hset.quiet, hqueue, hadv.grows.trans hset.grows,
    hset.grows.keeps hkeep, ?_⟩
  · rw [follow, hrun]
  · exact hadv.run.trans
      ((calmly_call (.resolved importing depth edge o m) rfl).trans hset.run)

end Linker

end ModuleLens
