import ModuleLens.Proofs.Linker.Slots
import ModuleLens.Proofs.SharedStore.Makers

/-! What the threads hold, whatever happens to them.  A thread holds the slots that it has claimed
and not yet filled or cleared.  Waits may take too long, and a thread may be thrown out anywhere:
then it clears what it holds, the latest first.  A thread claims only slots that are deeper than
those it holds. -/

namespace ModuleLens

open Node

variable {env : ImportEnv}

namespace Errand

variable {α β : Type}

/-- The slots that are held are filled or cleared, the latest first, before the errand is over,
whatever it comes across as long as the module source comes back; only slots are claimed that are
deeper than `floor` and than those that are held. -/
def Holds (floor : Nat) : Errand α → List Edition → Prop
  | finished _, held => held = []
  | hung, _ => False
  | load _ _ next, held => ∀ d, Holds floor (next d) held
  | call _ _ next, held =>
    ∀ reading build, reading ≠ .hangs → Holds floor (next reading build) held
  | claim k next, held =>
    floor < k.depth ∧ (∀ j ∈ held, j.depth < k.depth) ∧
      (∀ product, Holds floor (next (.found product)) held) ∧ Holds floor (next .expired) held ∧
      Holds floor (next .granted) (k :: held)
  | publish k _ next, held => ∃ rest, held = k :: rest ∧ Holds floor next rest
  | abandon k next, held => ∃ rest, held = k :: rest ∧ Holds floor next rest

theorem Holds.bind {floor floor' : Nat} {e : Errand α} {k : Option α → Errand β}
    {held below : List Edition} (h : e.Holds floor held) (hf : floor' ≤ floor)
    (hb : ∀ j ∈ below, j.depth ≤ floor) (hk : ∀ r, (k r).Holds floor' below) :
    (e.bind k).Holds floor' (held ++ below) := by
  induction e generalizing held with
  | finished result =>
    have hh : held = [] := h
    subst hh
    exact hk result
  | hung => exact h.elim
  | load importing path next ih => exact fun d => ih d (h d)
  | call document depth next ih =>
    exact fun reading build hr => ih reading build (h reading build hr)
  | claim edition next ih =>
    obtain ⟨hd, hj, hfound, hexpired, hgranted⟩ := h
    refine ⟨Nat.lt_of_le_of_lt hf hd, fun j hm => ?_, fun product => ih _ (hfound product),
      ih _ hexpired, ih _ hgranted⟩
    rcases List.mem_append.1 hm with hm | hm
    · exact hj j hm
    · exact Nat.lt_of_le_of_lt (hb j hm) hd
  | publish edition product next ih =>
    obtain ⟨rest, rfl, hn⟩ := h
    exact ⟨rest ++ below, rfl, ih hn⟩
  | abandon edition next ih =>
    obtain ⟨rest, rfl, hn⟩ := h
    exact ⟨rest ++ below, rfl, ih hn⟩

theorem Holds.andThen {floor : Nat} {e : Errand α} {k : α → Errand β} (h : e.Holds floor [])
    (hk : ∀ a, (k a).Holds floor []) : (e.andThen k).Holds floor [] := by
  refine h.bind (Nat.le_refl floor) (fun _ hj => absurd hj List.not_mem_nil) fun r => ?_
  cases r with
  | none => rfl
  | some a => exact hk a

theorem holds_answerAll {floor : Nat} {answer : ImportEdge → Errand (Outcome Node)}
    (h : ∀ edge, (answer edge).Holds floor []) (rs : List Request) (a : Answers) :
    (answerAll answer a rs).Holds floor [] := by
  induction rs generalizing a with
  | nil => rfl
  | cons r rs ih => exact (h r.edge).andThen fun outcome => ih _

theorem holds_make {floor : Nat} {answer : ImportEdge → Errand (Outcome Node)}
    (h : ∀ edge, (answer edge).Holds floor []) (document : Document) (depth : Nat)
    {reading : Reading} (hr : reading ≠ .hangs) (build : Nat) :
    (make answer document depth reading build).Holds floor [] := by
  cases reading with
  | tree tree => exact (holds_answerAll h _ {}).andThen fun answers => rfl
  | failed => rfl
  | unwinds => rfl
  | hangs => exact absurd rfl hr

theorem holds_followAt (maxDepth levels : Nat) (importing : Document) {depth floor : Nat}
    (hf : floor ≤ depth) (edge : ImportEdge) :
    (followAt maxDepth levels importing depth edge).Holds floor [] := by
  induction levels generalizing importing depth floor edge with
  | zero => rfl
  | succ levels ih =>
    intro d
    cases d with
    | error e => rfl
    | ok document =>
      refine ⟨Nat.lt_succ_of_le hf, fun j hj => absurd hj List.not_mem_nil, fun product => rfl, rfl,
        fun reading build hr => ?_⟩
      have hm := holds_make (fun edge => ih document (Nat.le_refl (depth + 1)) edge) document
        (depth + 1) hr build
      refine hm.bind (Nat.le_succ_of_le hf) (fun j hj => ?_) fun r => ?_
      · exact Nat.le_of_eq (congrArg Edition.depth (List.mem_singleton.1 hj))
      · -- the slot of the document is filled or cleared on every way out
        cases r <;> exact ⟨[], rfl, rfl⟩

theorem holds_follow (maxDepth : Nat) (importing : Document) (depth : Nat) (edge : ImportEdge) :
    (follow maxDepth importing depth edge).Holds 0 [] :=
  holds_followAt maxDepth _ importing (Nat.zero_le depth) edge

/-- The slots that an errand holds, read off the way on which nothing is found or claimed any
more. -/
def held : Errand α → List Edition
  | finished _ => []
  | hung => []
  | load _ _ next => (next (.error (.unknownStdlibModule []))).held
  | call _ _ next => (next .failed 0).held
  | claim _ next => (next .expired).held
  | publish k _ next => k :: next.held
  | abandon k next => k :: next.held

theorem Holds.held_eq {floor : Nat} {e : Errand α} {held : List Edition} (h : e.Holds floor held) :
    e.held = held := by
  induction e generalizing held with
  | finished result => exact h.symm
  | hung => exact h.elim
  | load importing path next ih => exact ih _ (h _)
  | call document depth next ih => exact ih _ _ (h .failed 0 (by simp))
  | claim edition next ih => exact ih _ h.2.2.2.1
  | publish edition product next ih =>
    obtain ⟨rest, rfl, hn⟩ := h
    exact congrArg (edition :: ·) (ih hn)
  | abandon edition next ih =>
    obtain ⟨rest, rfl, hn⟩ := h
    exact congrArg (edition :: ·) (ih hn)

/-- What is left of an errand that is thrown out. -/
def dismissed (e : Errand α) : Errand α := e.held.foldr abandon (finished none)

theorem holds_dismissed (floor : Nat) (e : Errand α) : e.dismissed.Holds floor e.held := by
  rw [dismissed]
  induction e.held with
  | nil => rfl
  | cons k held ih => exact ⟨held, rfl, ih⟩

def Orderly (e : Errand α) : Prop := ∃ floor, e.Holds floor e.held

theorem Holds.orderly {floor : Nat} {e : Errand α} {held : List Edition} (h : e.Holds floor held) :
    e.Orderly :=
  ⟨floor, h.held_eq ▸ h⟩

theorem Step.orderly (hs : ∀ document, env.source document ≠ .hangs) {deed : Deed}
    {e e' : Errand α} {l l' : Linker} (h : Step env deed e l e' l') (he : e.Orderly) :
    e'.Orderly ∧ SharedStore.Shifts l.modules l'.modules e.held e'.held := by
  obtain ⟨floor, he⟩ := he
  have hsame {d : Errand α} (hd : d.Holds floor e.held) :
      d.Orderly ∧ SharedStore.Shifts l.modules l.modules e.held d.held := by
    refine ⟨hd.orderly, ?_⟩
    rw [hd.held_eq]
    exact .same _ _
  cases h with
  | load importing path next => exact hsame (he _)
  | call document depth next => exact hsame (he _ _ (hs document))
  | unwind document depth next => exact hsame (he .unwinds _ (by simp))
  | found next h => exact hsame (he.2.2.1 _)
  | @granted edition _ next h =>
    have hn := he.2.2.2.2
    refine ⟨hn.orderly, ?_⟩
    rw [hn.held_eq]
    exact .claim h _
  | expire next h => exact hsame he.2.2.2.1
  | publish edition product next =>
    obtain ⟨rest, hheld, hn⟩ := he
    refine ⟨hn.orderly, ?_⟩
    rw [hheld, hn.held_eq]
    exact .publish _ _ _ _
  | abandon edition next =>
    obtain ⟨rest, hheld, hn⟩ := he
    refine ⟨hn.orderly, ?_⟩
    rw [hheld, hn.held_eq]
    exact .abandon _ _ _

end Errand

namespace Caller

def held (a : Caller) : List Edition := (a.errand?.map Errand.held).getD []

/-- What becomes of a calling thread that is thrown out: it clears what it holds first. -/
def dismissed : Caller → Caller
  | following entry r rs errand => following entry r rs errand.dismissed
  | resolving importing depth edge errand => resolving importing depth edge errand.dismissed
  | reading _ | announcing .. | collecting .. => unwound
  | a => a

/-- A calling thread at the beginning of a call. -/
def Begins (env : ImportEnv) : Caller → Prop
  | reading _ => True
  | announcing entry edges numbered =>
    edges = entry.tree.scan entry.document.text ∧ numbered = [] ∧ entry.tickets = {} ∧
      entry.answers = {}
  | resolving importing depth edge errand => errand = .follow env.maxDepth importing depth edge
  | _ => False

theorem held_dismissed (a : Caller) : a.dismissed.held = a.held := by
  cases a with
  | following entry r rs errand => exact (Errand.holds_dismissed 0 errand).held_eq
  | resolving importing depth edge errand => exact (Errand.holds_dismissed 0 errand).held_eq
  | _ => rfl

end Caller

def EntryBuild.Ticketed (bound : Nat) (entry : EntryBuild) : Prop :=
  ∀ edge, ∀ ticket ∈ entry.tickets.getD edge [], ticket < bound

namespace Caller

/-- The errand that a calling thread is at is orderly, and it waits only for jobs that it has handed
in. -/
def Orderly (bound : Nat) : Caller → Prop
  | announcing _ _ numbered => ∀ n ∈ numbered, n.2 < bound
  | collecting entry _ => entry.Ticketed bound
  | following entry _ _ errand => entry.Ticketed bound ∧ errand.Orderly
  | resolving _ _ _ errand => errand.Orderly
  | _ => True

theorem Orderly.mono {bound bound' : Nat} (hb : bound ≤ bound') {a : Caller}
    (h : a.Orderly bound) : a.Orderly bound' := by
  have hlt {t : Nat} (ht : t < bound) : t < bound' := Nat.lt_of_lt_of_le ht hb
  cases a with
  | announcing entry edges numbered => exact fun n hn => hlt (h n hn)
  | collecting entry requests => exact fun edge t ht => hlt (h edge t ht)
  | following entry r rs errand => exact ⟨fun edge t ht => hlt (h.1 edge t ht), h.2⟩
  | _ => exact h

theorem Orderly.errand {bound : Nat} {a : Caller} {e : Errand (Outcome Node)} (h : a.Orderly bound)
    (he : a.errand? = some e) : e.Orderly := by
  cases a with
  | following entry r rs errand =>
    cases he
    exact h.2
  | resolving importing depth edge errand =>
    cases he
    exact h
  | _ => cases he

theorem Orderly.dismissed {bound : Nat} {a : Caller} (h : a.Orderly bound) :
    a.dismissed.Orderly bound := by
  cases a with
  | following entry r rs errand => exact ⟨h.1, (Errand.holds_dismissed 0 errand).orderly⟩
  | resolving importing depth edge errand => exact (Errand.holds_dismissed 0 errand).orderly
  | _ => trivial

theorem Begins.orderly {a : Caller} (h : a.Begins env) (bound : Nat) :
    a.Orderly bound ∧ a.held = [] := by
  cases a with
  | reading document => exact ⟨trivial, rfl⟩
  | announcing entry edges numbered =>
    obtain ⟨_, rfl, _⟩ := h
    exact ⟨fun n hn => absurd hn List.not_mem_nil, rfl⟩
  | resolving importing depth edge errand =>
    have hh := Errand.holds_follow env.maxDepth importing depth edge
    cases h
    exact ⟨hh.orderly, hh.held_eq⟩
  | _ => exact h.elim

theorem Step.orderly (hs : ∀ document, env.source document ≠ .hangs) {deed : Deed}
    {a a' : Caller} {l l' : Linker} (h : Step env deed a l a' l') (ha : a.Orderly l.tickets) :
    a'.Orderly l'.tickets ∧ SharedStore.Shifts l.modules l'.modules a.held a'.held := by
  have hrest {entry entry' : EntryBuild} {r : Request} {ticket : Nat} {rest : Linker.Tickets}
      (he : entry.Ticketed l.tickets) (hrest : entry'.tickets = rest)
      (ht : Linker.takeTicket entry.tickets r.edge = some (ticket, rest)) :
      entry'.Ticketed l.tickets := by
    intro edge t hm
    rw [hrest] at hm
    exact he edge t ((Linker.takeTicket_eq_some ht).2 edge t hm)
  cases h with
  | read _ _ => exact ⟨fun n hn => absurd hn List.not_mem_nil, .same _ _⟩
  | announce entry edge edges numbered =>
    refine ⟨fun n hn => ?_, .same _ _⟩
    rcases List.mem_append.1 hn with hn | hn
    · exact Nat.lt_succ_of_lt (ha n hn)
    · rw [List.mem_singleton.1 hn]
      exact Nat.lt_succ_self l.tickets
  | collect entry numbered =>
    refine ⟨fun edge t ht => ?_, .same _ _⟩
    rw [Linker.getD_ticketsOf] at ht
    obtain ⟨n, hn, rfl⟩ := List.mem_map.1 ht
    exact ha n (List.mem_filter.1 hn).1
  | wait rs _ ht => exact ⟨ha, .same _ _⟩
  | reply rs ht ho => exact ⟨hrest ha rfl ht, .same _ _⟩
  | lost rs ht ho => exact ⟨hrest ha rfl ht, .same _ _⟩
  | giveUp rs ht ho => exact ⟨hrest ha rfl ht, .same _ _⟩
  | @inline entry r rs _ ht =>
    have hh := Errand.holds_follow env.maxDepth entry.document 0 r.edge
    refine ⟨⟨ha, hh.orderly⟩, ?_⟩
    change SharedStore.Shifts l.modules l.modules [] (Errand.held _)
    rw [hh.held_eq]
    exact .same _ _
  | follow entry r rs h =>
    obtain ⟨ho, hsh⟩ := h.orderly hs ha.2
    exact ⟨⟨h.frame.2.2 ▸ ha.1, ho⟩, hsh⟩
  | followed entry r rs outcome => exact ⟨ha.1, .same _ _⟩
  | resolve importing depth edge h => exact h.orderly hs ha
  | _ => exact ⟨trivial, .same _ _⟩

end Caller

/-- What one thread does to the pending slots, seen from all threads. -/
theorem SharedStore.Shifts.spread {κ ν : Type} [DecidableEq κ] {s s' : SharedStore κ ν}
    {before after pre post : List κ} (h : Shifts s s' before after)
    (hn : (pre ++ before ++ post).Nodup)
    (hp : ∀ k, s.get? k = some .pending ↔ k ∈ pre ++ before ++ post) :
    (pre ++ after ++ post).Nodup ∧
      ∀ k, s'.get? k = some .pending ↔ k ∈ pre ++ after ++ post := by
  have hperm (keys : List κ) : (pre ++ keys ++ post).Perm (keys ++ (pre ++ post)) := by
    simp only [List.append_assoc]
    exact List.perm_append_comm_assoc ..
  obtain ⟨hn, hrest, hd⟩ := List.nodup_append'.1 ((hperm before).nodup_iff.1 hn)
  have hpending (k : κ) : s.get? k = some .pending ↔ k ∈ before ∨ k ∈ pre ++ post := by
    rw [hp k, (hperm before).mem_iff, List.mem_append]
  obtain ⟨hn, hp, hd⟩ := h.apart hn hpending fun k hm => hd hm
  refine ⟨(hperm after).nodup_iff.2 (List.nodup_append'.2 ⟨hn, hrest, fun k => hd k⟩), fun k => ?_⟩
  rw [hp k, (hperm after).mem_iff]
  exact List.mem_append.symm

namespace Crew

/-- A thread is thrown out. -/
inductive Throw : Crew → Crew → Prop where
  | caller (l : Linker) (active : List Job) (pre post : List Caller) (a : Caller) :
      Throw ⟨l, active, pre ++ a :: post⟩ ⟨l, active, pre ++ a.dismissed :: post⟩
  | worker (l : Linker) (ticket : Nat) (e : Errand (Outcome Node)) (pre post : List Job)
      (callers : List Caller) :
      Throw ⟨l, pre ++ ⟨ticket, e⟩ :: post, callers⟩
        ⟨l, pre ++ ⟨ticket, e.dismissed⟩ :: post, callers⟩

/-- What a crew comes to when threads may be thrown out anywhere, with what was done on the way, the
latest first. -/
inductive Course (env : ImportEnv) (start : Crew) : List Deed → Crew → Prop where
  | refl : Course env start [] start
  | step {deeds : List Deed} {c c' : Crew} {deed : Deed} (h : Course env start deeds c)
      (s : Step env deed c c') : Course env start (deed :: deeds) c'
  | throw {deeds : List Deed} {c c' : Crew} (h : Course env start deeds c) (s : Throw c c') :
      Course env start (.unwound :: deeds) c'

def held (c : Crew) : List Edition :=
  c.active.flatMap (fun job => job.errand.held) ++ c.callers.flatMap Caller.held

theorem held_call (l : Linker) (active : List Job) (pre post : List Caller) (a : Caller) :
    held ⟨l, active, pre ++ a :: post⟩ =
      (active.flatMap (fun job => job.errand.held) ++ pre.flatMap Caller.held) ++ a.held ++
        post.flatMap Caller.held := by
  simp only [held, List.flatMap_append, List.flatMap_cons, List.append_assoc]

theorem held_work (l : Linker) (pre post : List Job) (ticket : Nat) (e : Errand (Outcome Node))
    (callers : List Caller) :
    held ⟨l, pre ++ ⟨ticket, e⟩ :: post, callers⟩ =
      pre.flatMap (fun job => job.errand.held) ++ e.held ++
        (post.flatMap (fun job => job.errand.held) ++ callers.flatMap Caller.held) := by
  simp only [held, List.flatMap_append, List.flatMap_cons, List.append_assoc]

/-- Every pending slot is held, by one thread and once, and every job that was handed in has its
reply or will have it. -/
structure Attended (workers : Nat) (c : Crew) : Prop where
  queue : ∀ job ∈ c.linker.queue, job.errand.Holds 0 []
  active : ∀ job ∈ c.active, job.errand.Orderly
  callers : ∀ a ∈ c.callers, a.Orderly c.linker.tickets
  nodup : c.held.Nodup
  pending : ∀ k, c.linker.modules.get? k = some .pending ↔ k ∈ c.held
  staffed : c.Staffed workers

theorem attended_begin (workers : Nat) {callers : List Caller}
    (h : ∀ a ∈ callers, a.Begins env) : Attended workers ⟨.ofWorkers workers, [], callers⟩ := by
  have hheld : held ⟨.ofWorkers workers, [], callers⟩ = [] :=
    List.flatMap_eq_nil_iff.2 fun a ha => ((h a ha).orderly 0).2
  refine ⟨fun job hj => absurd hj List.not_mem_nil, fun job hj => absurd hj List.not_mem_nil,
    fun a ha => ((h a ha).orderly _).1, ?_, fun k => ?_,
    fun t ht => absurd ht (Nat.not_lt_zero t), rfl⟩
  · rw [hheld]
    exact List.nodup_nil
  · rw [hheld]
    exact ⟨fun hk => (nomatch hk), fun hk => absurd hk List.not_mem_nil⟩

theorem Attended.replace {workers : Nat} {l l' : Linker} {active active' : List Job}
    {callers callers' : List Caller} {pre post before after : List Edition}
    (hc : Attended workers ⟨l, active, callers⟩)
    (hstaff : Staffed workers ⟨l', active', callers'⟩)
    (hsh : SharedStore.Shifts l.modules l'.modules before after)
    (hb : held ⟨l, active, callers⟩ = pre ++ before ++ post)
    (ha : held ⟨l', active', callers'⟩ = pre ++ after ++ post)
    (hqueue : ∀ job ∈ l'.queue, job.errand.Holds 0 [])
    (hactive : ∀ job ∈ active', job.errand.Orderly)
    (hcallers : ∀ a ∈ callers', a.Orderly l'.tickets) :
    Attended workers ⟨l', active', callers'⟩ := by
  obtain ⟨hn, hp⟩ := hsh.spread (hb ▸ hc.nodup) (hb ▸ hc.pending)
  exact ⟨hqueue, hactive, hcallers, ha ▸ hn, ha ▸ hp, hstaff⟩

theorem Step.attended (hs : ∀ document, env.source document ≠ .hangs) {workers : Nat} {deed : Deed}
    {c c' : Crew} (h : Step env deed c c') (hc : c.Attended workers) : c'.Attended workers := by
  have hstaff := h.staffed hc.staffed
  have hqueue (job : Job) (hm : job ∈ c'.linker.queue) : job.errand.Holds 0 [] := by
    rcases h.queued job hm with hm | ⟨document, edge, he⟩
    · exact hc.queue job hm
    · exact he ▸ Errand.holds_follow env.maxDepth document 0 edge
  cases h with
  | @call _ a a' l l' active pre post h =>
    obtain ⟨ha, hsh⟩ := h.orderly hs (hc.callers a (by simp))
    have hle : l.tickets ≤ l'.tickets := by
      obtain ⟨_, _, ⟨_, ht⟩ | ⟨_, _, _, ht⟩⟩ := h.jobs <;> omega
    exact hc.replace hstaff hsh (held_call ..) (held_call ..) hqueue hc.active
      (forall_mem_replace (fun b hb => (hc.callers b hb).mono hle) ha)
  | @take l job rest active callers hi hq =>
    have hj := hc.queue job (by simp [hq])
    refine hc.replace hstaff (.same _ _) (List.append_nil _).symm ?_ hqueue (fun j hm => ?_)
      hc.callers
    · simp [held, hj.held_eq]
    · rcases List.mem_cons.1 hm with rfl | hm
      · exact hj.orderly
      · exact hc.active j hm
  | @work _ e e' l l' ticket pre post callers h =>
    obtain ⟨he, hsh⟩ := h.orderly hs (hc.active ⟨ticket, e⟩ (by simp))
    exact hc.replace hstaff hsh (held_work ..) (held_work ..) hqueue
      (forall_mem_replace hc.active he) (h.frame.2.2 ▸ hc.callers)
  | reply l ticket result pre post callers =>
    refine hc.replace hstaff (.same _ _) (held_work ..) ?_ hqueue (fun j hm => ?_) hc.callers
    · simp [held, Errand.held]
    · exact hc.active j (by grind)

theorem Throw.attended {workers : Nat} {c c' : Crew} (h : Throw c c') (hc : c.Attended workers) :
    c'.Attended workers := by
  cases h with
  | caller l active pre post a =>
    have hheld : held ⟨l, active, pre ++ a.dismissed :: post⟩ = _ := held_call ..
    rw [a.held_dismissed] at hheld
    exact hc.replace ⟨hc.staffed.replies, hc.staffed.workers⟩ (.same _ _) (held_call ..) hheld
      hc.queue hc.active (forall_mem_replace hc.callers (hc.callers a (by simp)).dismissed)
  | worker l ticket e pre post callers =>
    have hheld : held ⟨l, pre ++ ⟨ticket, e.dismissed⟩ :: post, callers⟩ = _ := held_work ..
    rw [(Errand.holds_dismissed 0 e).held_eq] at hheld
    exact hc.replace (hc.staffed.work rfl ⟨rfl, rfl, rfl⟩) (.same _ _) (held_work ..) hheld
      hc.queue (forall_mem_replace hc.active (Errand.holds_dismissed 0 e).orderly) hc.callers

theorem Course.attended (hs : ∀ document, env.source document ≠ .hangs) {workers : Nat}
    {start c : Crew} {deeds : List Deed} (h : Course env start deeds c)
    (hc : start.Attended workers) : c.Attended workers := by
  induction h with
  | refl => exact hc
  | step _ s ih => exact s.attended hs ih
  | throw _ s ih => exact s.attended ih

end Crew

end ModuleLens
