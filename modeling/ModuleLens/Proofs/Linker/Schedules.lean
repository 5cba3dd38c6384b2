import ModuleLens.Proofs.Linker.Interleaving
import ModuleLens.Proofs.Lists

/-! Schedules do not matter.  As long as no wait takes too long and no build is thrown out, every
interleaving of callers and workers keeps the slots right and pays every job with the outcome that
it was handed in for. -/

namespace ModuleLens

open Node

instance : Std.LawfulEqCmp ImportEdge.order where
  eq_of_compare {a b} h := by
    simp only [ImportEdge.order, compareLex, Ordering.then_eq_eq, compareOn] at h
    obtain ⟨hk, hp⟩ := h
    have hr := Std.LawfulEqOrd.eq_of_compare hk
    obtain ⟨k, p⟩ := a
    obtain ⟨k', p'⟩ := b
    have hkk : k = k' := by cases k <;> cases k' <;> simp_all [ImportKind.rank]
    have hpp : p = p' := Std.LawfulEqOrd.eq_of_compare hp
    rw [hkk, hpp]

namespace Linker

theorem getD_addTicket (tickets : Tickets) (edge e : ImportEdge) (ticket : Nat) :
    (addTicket tickets edge ticket).getD e [] =
      if edge = e then ticket :: tickets.getD edge [] else tickets.getD e [] := by
  by_cases h : edge = e
  · subst h
    simp [addTicket]
  · have hc : ImportEdge.order edge e ≠ .eq := fun hc => h (Std.LawfulEqCmp.eq_of_compare hc)
    simp [addTicket, Std.TreeMap.getD_insert, hc, h]

theorem getD_ticketsOf (numbered : List (ImportEdge × Nat)) (e : ImportEdge) :
    (ticketsOf numbered).getD e [] = (numbered.filter fun n => n.1 = e).map Prod.snd := by
  induction numbered with
  | nil => simp [ticketsOf]
  | cons n numbered ih =>
    have hh := getD_addTicket (ticketsOf numbered) n.1 e n.2
    rw [show ticketsOf (n :: numbered) = addTicket (ticketsOf numbered) n.1 n.2 from rfl, hh]
    by_cases h : n.1 = e
    · subst h
      simp [ih]
    · simp [h, ih]

theorem takeTicket_eq_some {tickets rest : Tickets} {edge : ImportEdge} {ticket : Nat}
    (h : takeTicket tickets edge = some (ticket, rest)) :
    ticket ∈ tickets.getD edge [] ∧ ∀ e, ∀ t ∈ rest.getD e [], t ∈ tickets.getD e [] := by
  rw [takeTicket] at h
  split at h
  · cases h
  · next a as ha =>
    cases h
    refine ⟨by simp [ha], fun e t ht => ?_⟩
    by_cases he : edge = e
    · subst he
      rw [ha]
      exact List.mem_cons_of_mem _ (by simpa using ht)
    · have hc : ImportEdge.order edge e ≠ .eq := fun hc => he (Std.LawfulEqCmp.eq_of_compare hc)
      simpa [Std.TreeMap.getD_insert, hc] using ht

end Linker

theorem Errand.Step.frame {α : Type} {env : ImportEnv} {deed : Deed} {e e' : Errand α}
    {l l' : Linker} (h : Errand.Step env deed e l e' l') :
    l'.queue = l.queue ∧ l'.replies = l.replies ∧ l'.tickets = l.tickets := by
  cases h <;> exact ⟨rfl, rfl, rfl⟩

section Invariant

/- What is remembered, the entry documents that callers build, each with its tree if it has one, and
what the reply to each job has to be. -/
variable {env : ImportEnv} {memory : Edition → Option Product}
  {origin : Option SyntaxTree → Document → Prop} {due : Nat → Outcome Node → Prop} {bound : Nat}

/-- A job pays for an import: whatever is due to it is the outcome of the import. -/
def Pays (env : ImportEnv) (memory : Edition → Option Product) (due : Nat → Outcome Node → Prop)
    (bound : Nat) (document : Document) (edge : ImportEdge) (ticket : Nat) : Prop :=
  ticket < bound ∧ ∀ outcome, due ticket outcome →
    plainOutcome outcome = plainOutcome (env.followWith memory document 0 edge)

/-- The answers that are collected are right up to the requests that are left. -/
def EntryBuild.Sound (env : ImportEnv) (memory : Edition → Option Product)
    (due : Nat → Outcome Node → Prop) (bound : Nat) (entry : EntryBuild)
    (requests : List Request) : Prop :=
  (∀ edge, ∀ ticket ∈ entry.tickets.getD edge [],
    Pays env memory due bound entry.document edge ticket) ∧
  ∃ done, entry.draft.requests = done ++ requests ∧
    Answers.Alike entry.answers (answersFrom (env.followWith memory entry.document 0) {} done)

def Caller.Sound (env : ImportEnv) (memory : Edition → Option Product)
    (origin : Option SyntaxTree → Document → Prop) (due : Nat → Outcome Node → Prop) (bound : Nat) :
    Caller → Prop
  | reading document =>
    (∀ tree, env.source document = .tree tree → origin (some tree) document) ∧
      (env.source document = .failed → origin none document)
  | announcing entry _ numbered =>
    origin (some entry.tree) entry.document ∧ Answers.Alike entry.answers {} ∧
      ∀ n ∈ numbered, Pays env memory due bound entry.document n.1 n.2
  | collecting entry requests =>
    origin (some entry.tree) entry.document ∧ entry.Sound env memory due bound requests
  | following entry request requests errand =>
    origin (some entry.tree) entry.document ∧
      entry.Sound env memory due bound (request :: requests) ∧
      errand.Sound env memory fun o =>
        plainOutcome o = plainOutcome (env.followWith memory entry.document 0 request.edge)
  | resolving importing depth edge errand =>
    errand.Sound env memory fun o =>
      plainOutcome o = plainOutcome (env.followWith memory importing depth edge)
  | built tree document module =>
    origin (some tree) document ∧ module.plain = (env.entryWith memory tree document).plain
  | failed document => origin none document
  | resolved importing depth edge outcome =>
    plainOutcome outcome = plainOutcome (env.followWith memory importing depth edge)
  | unwound => False

/-- The invariant of a crew: every slot is right, every job will pay and every reply has paid what
is due to it. -/
structure Crew.Sound (env : ImportEnv) (memory : Edition → Option Product)
    (origin : Option SyntaxTree → Document → Prop) (due : Nat → Outcome Node → Prop) (c : Crew) :
    Prop where
  faithful : c.linker.Faithful env memory
  jobs : ∀ job ∈ c.linker.queue ++ c.active,
    job.ticket < c.linker.tickets ∧ job.errand.Sound env memory (due job.ticket)
  replies : ∀ {ticket : Nat} {result}, c.linker.replies[ticket]? = some result →
    ticket < c.linker.tickets ∧ ∃ outcome, result = some outcome ∧ due ticket outcome
  callers : ∀ caller ∈ c.callers, caller.Sound env memory origin due c.linker.tickets

theorem Pays.mono {due' : Nat → Outcome Node → Prop} {bound' : Nat} {document : Document}
    {edge : ImportEdge} {ticket : Nat} (hb : bound ≤ bound') (hd : ∀ t < bound, due' t = due t)
    (h : Pays env memory due bound document edge ticket) :
    Pays env memory due' bound' document edge ticket :=
  ⟨Nat.lt_of_lt_of_le h.1 hb, fun outcome ho => h.2 outcome (hd ticket h.1 ▸ ho)⟩

theorem EntryBuild.Sound.mono {due' : Nat → Outcome Node → Prop} {bound' : Nat}
    {entry : EntryBuild} {requests : List Request} (hb : bound ≤ bound')
    (hd : ∀ t < bound, due' t = due t) (h : entry.Sound env memory due bound requests) :
    entry.Sound env memory due' bound' requests :=
  ⟨fun edge ticket ht => (h.1 edge ticket ht).mono hb hd, h.2⟩

theorem Caller.Sound.mono {due' : Nat → Outcome Node → Prop} {bound' : Nat} {caller : Caller}
    (hb : bound ≤ bound') (hd : ∀ t < bound, due' t = due t)
    (h : caller.Sound env memory origin due bound) :
    caller.Sound env memory origin due' bound' := by
  cases caller with
  | announcing entry edges numbered =>
    exact ⟨h.1, h.2.1, fun n hn => (h.2.2 n hn).mono hb hd⟩
  | collecting entry requests => exact ⟨h.1, h.2.mono hb hd⟩
  | following entry request requests errand => exact ⟨h.1, h.2.1.mono hb hd, h.2.2⟩
  | _ => exact h

theorem EntryBuild.Sound.answer {entry : EntryBuild} {r : Request} {rs : List Request}
    {outcome : Outcome Node} {rest : Linker.Tickets}
    (h : entry.Sound env memory due bound (r :: rs))
    (ht : ∀ e, ∀ t ∈ rest.getD e [], t ∈ entry.tickets.getD e [])
    (ho : plainOutcome outcome = plainOutcome (env.followWith memory entry.document 0 r.edge)) :
    EntryBuild.Sound env memory due bound
      { entry with tickets := rest, answers := entry.answers.insert r.index outcome } rs := by
  obtain ⟨hp, done, hd, ha⟩ := h
  refine ⟨fun edge ticket hm => hp edge ticket (ht edge ticket hm), done ++ [r], ?_, ?_⟩
  · exact hd.trans (by simp)
  · rw [answersFrom, List.foldl_append]
    exact ha.insert ho r.index

/-- A calling thread has taken a step: the slots are right, the jobs that it handed in stand last in
the queue and will pay what is now due to them, and so is what the caller holds. -/
structure Caller.Advances (env : ImportEnv) (memory : Edition → Option Product)
    (origin : Option SyntaxTree → Document → Prop) (due due' : Nat → Outcome Node → Prop)
    (l l' : Linker) (c : Caller) : Prop where
  faithful : l'.Faithful env memory
  replies : l'.replies = l.replies
  tickets : l.tickets ≤ l'.tickets
  due_eq : ∀ t < l.tickets, due' t = due t
  jobs : ∃ jobs, l'.queue = l.queue ++ jobs ∧ ∀ job ∈ jobs,
    job.ticket < l'.tickets ∧ job.errand.Sound env memory (due' job.ticket)
  sound : c.Sound env memory origin due' l'.tickets

section Advances

variable {l l' : Linker} {c : Caller}

theorem Caller.Advances.of_frame (hf : l'.Faithful env memory)
    (hl : l'.queue = l.queue ∧ l'.replies = l.replies ∧ l'.tickets = l.tickets)
    (hc : c.Sound env memory origin due l.tickets) :
    c.Advances env memory origin due due l l' := by
  obtain ⟨hq, hrep, ht⟩ := hl
  exact ⟨hf, hrep, ht ▸ Nat.le_refl _, fun _ _ => rfl,
    ⟨[], by rw [hq, List.append_nil], fun _ h => absurd h List.not_mem_nil⟩, ht ▸ hc⟩

theorem Caller.Advances.announce (hr : env.Regular) (hl : l.Faithful env memory)
    {entry : EntryBuild} {edge : ImportEdge} {edges : List ImportEdge}
    {numbered : List (ImportEdge × Nat)}
    (hc : (announcing entry (edge :: edges) numbered).Sound env memory origin due l.tickets) :
    ∃ due', Caller.Advances env memory origin due due' l
      { l with
        tickets := l.tickets + 1
        queue := l.queue ++ [⟨l.tickets, .follow env.maxDepth entry.document 0 edge⟩] }
      (.announcing entry edges (numbered ++ [(edge, l.tickets)])) := by
  obtain ⟨ho, ha, hn⟩ := hc
  -- the outcome of the import is due to the new job, whatever is due to the others
  let due' (t : Nat) (o : Outcome Node) : Prop :=
    if t = l.tickets then
      plainOutcome o = plainOutcome (env.followWith memory entry.document 0 edge)
    else due t o
  have hd (t : Nat) (ht : t < l.tickets) : due' t = due t := by
    funext o
    simp only [due', Nat.ne_of_lt ht, if_false]
  have hnew : due' l.tickets =
      fun o => plainOutcome o = plainOutcome (env.followWith memory entry.document 0 edge) := by
    funext o
    simp only [due', if_true]
  refine ⟨due', ⟨hl.keeps, hl.fits⟩, rfl, Nat.le_succ _, hd, ⟨[_], rfl, fun job hj => ?_⟩, ho, ha,
    fun n hm => ?_⟩
  · rw [List.mem_singleton] at hj
    subst hj
    exact ⟨Nat.lt_succ_self _, hnew ▸ Errand.sound_follow hr entry.document 0 edge⟩
  · rcases List.mem_append.1 hm with hm | hm
    · exact (hn n hm).mono (Nat.le_succ _) hd
    · rw [List.mem_singleton] at hm
      subst hm
      exact ⟨Nat.lt_succ_self _, fun outcome h => by simpa only [hnew] using h⟩

end Advances

theorem EntryBuild.sound_collect {entry : EntryBuild} {numbered : List (ImportEdge × Nat)}
    (ha : Answers.Alike entry.answers {})
    (hn : ∀ n ∈ numbered, Pays env memory due bound entry.document n.1 n.2) :
    EntryBuild.Sound env memory due bound { entry with tickets := Linker.ticketsOf numbered }
      entry.draft.requests := by
  refine ⟨fun edge ticket ht => ?_, [], rfl, ha⟩
  rw [Linker.getD_ticketsOf] at ht
  obtain ⟨n, hm, rfl⟩ := List.mem_map.1 ht
  obtain ⟨hm, he⟩ := List.mem_filter.1 hm
  have he : n.1 = edge := by simpa using he
  exact he ▸ hn n hm

theorem Caller.Step.sound (hr : env.Regular) {deed : Deed} {c c' : Caller} {l l' : Linker}
    (h : Caller.Step env deed c l c' l') (hcalm : deed.isCalm)
    (hc : c.Sound env memory origin due l.tickets) (hl : l.Faithful env memory)
    (hre : ∀ {ticket : Nat} {result}, l.replies[ticket]? = some result →
      ticket < l.tickets ∧ ∃ outcome, result = some outcome ∧ due ticket outcome) :
    ∃ due', c'.Advances env memory origin due due' l l' := by
  -- all steps but announcing leave the queue as it is
  cases h with
  | announce entry edge edges numbered => exact Caller.Advances.announce hr hl hc
  | @read document tree _ hs =>
    exact ⟨due, .of_frame ⟨hl.keeps, hl.fits⟩ ⟨rfl, rfl, rfl⟩
      ⟨hc.1 tree hs, .refl {}, fun _ h => nomatch h⟩⟩
  | readFailed l hs =>
    exact ⟨due, .of_frame ⟨hl.keeps, hl.fits⟩ ⟨rfl, rfl, rfl⟩ (hc.2 hs)⟩
  | readUnwound document l => cases hcalm
  | collect entry numbered =>
    exact ⟨due, .of_frame hl ⟨rfl, rfl, rfl⟩ ⟨hc.1, EntryBuild.sound_collect hc.2.1 hc.2.2⟩⟩
  | wait rs _ ht => exact ⟨due, .of_frame ⟨hl.keeps, hl.fits⟩ ⟨rfl, rfl, rfl⟩ hc⟩
  | reply rs ht hrep =>
    obtain ⟨htk, hrest⟩ := Linker.takeTicket_eq_some ht
    obtain ⟨_, o, ho, hdue⟩ := hre hrep
    cases ho
    exact ⟨due, .of_frame hl ⟨rfl, rfl, rfl⟩
      ⟨hc.1, hc.2.answer hrest ((hc.2.1 _ _ htk).2 _ hdue)⟩⟩
  | lost rs ht hrep =>
    obtain ⟨_, o, ho, _⟩ := hre hrep
    cases ho
  | giveUp rs ht hrep => cases hcalm
  | @inline entry r rs _ ht =>
    exact ⟨due, .of_frame hl ⟨rfl, rfl, rfl⟩
      ⟨hc.1, hc.2, Errand.sound_follow hr entry.document 0 r.edge⟩⟩
  | follow entry r rs h =>
    have hh := h.sound hcalm hc.2.2 hl
    exact ⟨due, .of_frame hh.2 h.frame ⟨hc.1, hc.2.1, hh.1⟩⟩
  | followed entry r rs outcome =>
    exact ⟨due, .of_frame hl ⟨rfl, rfl, rfl⟩ ⟨hc.1, hc.2.1.answer (fun _ _ h => h) hc.2.2⟩⟩
  | followUnwound entry r rs => exact hc.2.2.elim
  | link entry =>
    obtain ⟨ho, _, done, hd, ha⟩ := hc
    rw [List.append_nil] at hd
    rw [← hd, EntryBuild.draft, requests_draftModule entry.number 0] at ha
    exact ⟨due, .of_frame hl ⟨rfl, rfl, rfl⟩
      ⟨ho, plain_link_draftModule ha entry.number 0 entry.tree entry.document 0⟩⟩
  | resolve importing depth edge h =>
    have hh := h.sound hcalm hc hl
    exact ⟨due, .of_frame hh.2 h.frame hh.1⟩
  | resolved importing depth edge outcome => exact ⟨due, .of_frame hl ⟨rfl, rfl, rfl⟩ hc⟩
  | resolveUnwound importing depth edge => exact hc.elim

theorem Crew.Step.sound (hr : env.Regular) {deed : Deed} {c c' : Crew}
    (h : Crew.Step env deed c c') (hcalm : deed.isCalm) (hc : c.Sound env memory origin due) :
    ∃ due', c'.Sound env memory origin due' := by
  cases h with
  | @call _ a a' l l' active pre post h =>
    have ha := hc.callers a (by simp)
    obtain ⟨due', hadv⟩ := h.sound hr hcalm ha hc.faithful hc.replies
    obtain ⟨jobs, hq, hj⟩ := hadv.jobs
    refine ⟨due', hadv.faithful, fun job hm => ?_, fun {t r} ht => ?_,
      forall_mem_replace (fun b hb => (hc.callers b hb).mono hadv.tickets hadv.due_eq) hadv.sound⟩
    · -- a job was there before the step, or the caller has handed it in
      have hm : job ∈ (l.queue ++ jobs) ++ active := hq ▸ hm
      have hcase : job ∈ l.queue ++ active ∨ job ∈ jobs := by
        grind
      rcases hcase with hm | hm
      · obtain ⟨hb, hs⟩ := hc.jobs job hm
        exact ⟨Nat.lt_of_lt_of_le hb hadv.tickets, hadv.due_eq job.ticket hb ▸ hs⟩
      · exact hj job hm
    · obtain ⟨hb, o, ho, hdue⟩ := hc.replies (hadv.replies ▸ ht)
      exact ⟨Nat.lt_of_lt_of_le hb hadv.tickets, o, ho, hadv.due_eq t hb ▸ hdue⟩
  | @take l job rest active callers hi hq =>
    refine ⟨due, ⟨hc.faithful.keeps, hc.faithful.fits⟩, fun j hj => hc.jobs j ?_, hc.replies,
      hc.callers⟩
    have hj : j ∈ rest ++ job :: active := hj
    change j ∈ l.queue ++ active
    grind
  | @work _ e e' l l' ticket pre post callers h =>
    have hm : (⟨ticket, e⟩ : Job) ∈ l.queue ++ (pre ++ ⟨ticket, e⟩ :: post) := by simp
    obtain ⟨hb, hs⟩ := hc.jobs _ hm
    obtain ⟨hs', hf'⟩ := h.sound hcalm hs hc.faithful
    obtain ⟨hq, hrep, ht⟩ := h.frame
    refine ⟨due, hf', fun j hj => ?_, fun {t r} hj => ?_, fun a ha => ?_⟩
    · have hj : j ∈ l'.queue ++ (pre ++ ⟨ticket, e'⟩ :: post) := hj
      change j.ticket < l'.tickets ∧ _
      rw [hq] at hj
      rw [ht]
      simp only [List.mem_append, List.mem_cons] at hj
      rcases hj with hj | hj | rfl | hj
      · exact hc.jobs j (by simp [hj])
      · exact hc.jobs j (by simp [hj])
      · exact ⟨hb, hs'⟩
      · exact hc.jobs j (by simp [hj])
    · change l'.replies[t]? = some r at hj
      change t < l'.tickets ∧ _
      rw [hrep] at hj
      rw [ht]
      exact hc.replies hj
    · change a.Sound env memory origin due l'.tickets
      rw [ht]
      exact hc.callers a ha
  | reply l ticket result pre post callers =>
    have hm : (⟨ticket, .finished result⟩ : Job) ∈
        l.queue ++ (pre ++ ⟨ticket, .finished result⟩ :: post) := by simp
    obtain ⟨hb, hs⟩ := hc.jobs _ hm
    refine ⟨due, ⟨hc.faithful.keeps, hc.faithful.fits⟩, fun j hj => hc.jobs j ?_,
      fun {t r} ht => ?_, hc.callers⟩
    · have hj : j ∈ l.queue ++ (pre ++ post) := hj
      change j ∈ l.queue ++ (pre ++ ⟨ticket, .finished result⟩ :: post)
      grind
    · by_cases he : ticket = t
      · subst he
        have hrr : result = r := by simpa using ht
        subst hrr
        cases result with
        | none => exact hs.elim
        | some o => exact ⟨hb, o, rfl, hs⟩
      · exact hc.replies (by simpa [Std.TreeMap.getElem?_insert, he] using ht)

theorem Crew.Run.sound (hr : env.Regular) {start c : Crew} {deeds : List Deed}
    (h : Crew.Run env start deeds c) (hcalm : ∀ deed ∈ deeds, deed.isCalm)
    (hc : start.Sound env memory origin due) : ∃ due', c.Sound env memory origin due' := by
  induction h with
  | refl => exact ⟨due, hc⟩
  | tail _ s ih =>
    obtain ⟨due', hm⟩ := ih fun d hd => hcalm d (List.mem_cons_of_mem _ hd)
    exact s.sound hr (hcalm _ List.mem_cons_self) hm

end Invariant

end ModuleLens
