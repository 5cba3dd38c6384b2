import ModuleLens.Proofs.Linker.Confluence

/-! Calls one after the other.  A linker builds entry documents, follows single imports and forgets
documents, in any order.  Whatever it has stored, each reply is what comes of plain recursion, every
module made on the spot.  A module that was handed out once is handed out again, the very same node,
as long as its edition is not evicted.  The replies do not depend on the schedule: callers may come
and go on at any time, beside workers that have yet to finish what earlier callers left. -/

namespace ModuleLens

open Node

inductive Linker.Call where
  | build (document : Document)
  | follow (importing : Document) (depth : Nat) (edge : ImportEdge)
  | forget (uri : Uri)

inductive Linker.Reply where
  | built (result : Except EngineError (Fate Node))
  | followed (fate : Fate (Outcome Node))
  | forgotten

namespace Linker

def serve (env : ImportEnv) (l : Linker) : Call → Reply × Linker
  | .build document =>
    let (result, l) := l.buildEntry env document
    (.built result, l)
  | .follow importing depth edge =>
    let (fate, l) := l.follow env importing depth edge
    (.followed fate, l)
  | .forget uri => (.forgotten, l.forget uri)

def serveAll (env : ImportEnv) : Linker → List Call → List (Reply × Linker)
  | _, [] => []
  | l, call :: calls => l.serve env call :: serveAll env (l.serve env call).2 calls

def directReply (env : ImportEnv) : Call → Reply
  | .build document => .built ((env.directBuild document).map .done)
  | .follow importing depth edge => .followed (.done (env.direct importing depth edge))
  | .forget _ => .forgotten

namespace Reply

def plain : Reply → Reply
  | built result => built (result.map (Fate.map Node.plain))
  | followed fate => followed (fate.map plainOutcome)
  | forgotten => forgotten

/-- A reply leads to a module through imports that were followed. -/
inductive LeadsTo : Reply → Node → Prop where
  | built {module t m : Node} (ht : Imports module t) (hm : Reaches t m) :
      LeadsTo (.built (.ok (.done module))) m
  | followed {t m : Node} (hm : Reaches t m) : LeadsTo (.followed (.done (.resolved t))) m

end Reply

variable {env : ImportEnv} {l : Linker}

/-- Between calls: no one has anything to do, and every stored product is what its edition stands
for. -/
structure Ready (env : ImportEnv) (l : Linker) : Prop where
  quiet : l.Quiet
  queue : l.queue = []
  faithful : l.Faithful env ImportEnv.nothing

theorem ready_ofWorkers (env : ImportEnv) {workers : Nat} (h : 0 < workers) :
    (ofWorkers workers).Ready env :=
  ⟨quiet_ofWorkers h, rfl, faithful_ofWorkers env workers⟩

theorem Ready.forget (h : l.Ready env) (uri : Uri) : (l.forget uri).Ready env :=
  ⟨h.quiet.forget uri, h.queue, h.faithful.forget h.quiet.coherent.distinct uri⟩

/-- One call: the reply is that of plain recursion, the modules that it leads to are stored, and
what was stored before is still there or was evicted. -/
theorem Ready.serve (hr : env.Regular) (h : l.Ready env) (call : Call) :
    (l.serve env call).2.Ready env ∧
      (l.serve env call).1.plain = (directReply env call).plain ∧
      (∀ m, (l.serve env call).1.LeadsTo m → (l.serve env call).2.Holds m) ∧
      ∀ k p, l.modules.get? k = some (.ready p) →
        (l.serve env call).2.modules.get? k = some (.ready p) ∨
          (l.serve env call).2.modules.get? k = none := by
  cases call with
  | build document =>
    obtain ⟨caller, result, l', hres, hb, hq, he, hg, hm, deeds, hcalm, hrun⟩ :=
      buildEntry_spec hr h.quiet h.queue document
    obtain ⟨due, hsound⟩ := hrun.sound hr hcalm (h.quiet.sound h.queue h.faithful
      (Crew.reading_sound env ImportEnv.nothing document l.tickets))
    have hp := Crew.result_plain (hsound.callers caller List.mem_cons_self) hres
    simp only [Linker.serve, hb]
    refine ⟨⟨hq, he, hsound.faithful⟩, ?_, fun m hl => ?_, fun k p hk => .inl (hg.ready hk)⟩
    · have hmap (x : Except EngineError Node) :
          (x.map Fate.done).map (Fate.map Node.plain) = (x.map Node.plain).map .done := by
        cases x <;> rfl
      rw [Reply.plain, directReply, Reply.plain, hmap, hmap, hp]
    · cases result with
      | error e => cases hl
      | ok module =>
        cases hl with
        | built ht hm' => exact hq.coherent.closed.reaches ((hm _ rfl).targets rfl ht) hm'
  | follow importing depth edge =>
    obtain ⟨o, l', hf, hq, he, hg, hkeep, deeds, hcalm, hrun⟩ :=
      follow_spec hr h.quiet h.queue importing depth edge
    have hs : (Caller.resolving importing depth edge
        (.follow env.maxDepth importing depth edge)).Sound env ImportEnv.nothing
        (fun _ _ => True) (fun _ _ => True) l.tickets :=
      Errand.sound_follow hr importing depth edge
    obtain ⟨due, hsound⟩ := hrun.sound hr hcalm (h.quiet.sound h.queue h.faithful hs)
    have hp := hsound.callers _ List.mem_cons_self
    simp only [Linker.serve, hf]
    refine ⟨⟨hq, he, hsound.faithful⟩, ?_, fun m hl => ?_, fun k p hk => .inl (hg.ready hk)⟩
    · exact congrArg (fun o => Reply.followed (.done o)) hp
    · cases hl with
      | followed hm => exact hq.coherent.closed.reaches (hkeep _ rfl) hm
  | forget uri =>
    refine ⟨h.forget uri, rfl, fun m hl => (by cases hl), fun k p hk => ?_⟩
    change (SharedStore.prune l.modules (survives uri)).get? k = _ ∨
      (SharedStore.prune l.modules (survives uri)).get? k = _
    rw [SharedStore.prune, Table.get?_filter h.quiet.coherent.distinct, hk, Option.filter]
    by_cases hs : survives uri k p
    · exact .inl (if_pos hs)
    · exact .inr (if_neg hs)

/-- The slot of an edition is taken after each of the calls from `i` to `j`. -/
def Stays (served : List (Reply × Linker)) (i j : Nat) (k : Edition) : Prop :=
  ∀ n reply l, i ≤ n → n ≤ j → served[n]? = some (reply, l) → l.modules.get? k ≠ none

theorem serveAll_inv (hr : env.Regular) (h : l.Ready env) {calls : List Call} {i : Nat}
    {reply : Reply} {m : Linker} (hi : (serveAll env l calls)[i]? = some (reply, m)) :
    m.Ready env ∧ ∀ n, reply.LeadsTo n → m.Holds n := by
  induction calls generalizing l i with
  | nil => cases hi
  | cons call calls ih =>
    have hs := h.serve hr call
    cases i with
    | zero =>
      have he : l.serve env call = (reply, m) := by simpa [serveAll] using hi
      rw [he] at hs
      exact ⟨hs.1, hs.2.2.1⟩
    | succ i => exact ih hs.1 (by simpa [serveAll] using hi)

theorem serveAll_next (hr : env.Regular) (h : l.Ready env) {calls : List Call} {i : Nat}
    {r r' : Reply} {m m' : Linker} (hi : (serveAll env l calls)[i]? = some (r, m))
    (hi' : (serveAll env l calls)[i + 1]? = some (r', m')) {k : Edition} {p : Product}
    (hk : m.modules.get? k = some (.ready p)) :
    m'.modules.get? k = some (.ready p) ∨ m'.modules.get? k = none := by
  induction calls generalizing l i with
  | nil => cases hi
  | cons call calls ih =>
    have hs := h.serve hr call
    cases i with
    | zero =>
      have he : l.serve env call = (r, m) := by simpa [serveAll] using hi
      rw [he] at hs
      have hi' : (serveAll env (l.serve env call).2 calls)[0]? = some (r', m') := hi'
      rw [he] at hi'
      cases calls with
      | nil => cases hi'
      | cons call' calls =>
        have he' : m.serve env call' = (r', m') := by simpa [serveAll] using hi'
        have hs' := hs.1.serve hr call'
        rw [he'] at hs'
        exact hs'.2.2.2 k p hk
    | succ i => exact ih hs.1 (by simpa [serveAll] using hi) (by simpa [serveAll] using hi')

theorem plain_serveAll (hr : env.Regular) (h : l.Ready env) (calls : List Call) :
    (serveAll env l calls).map (fun served => served.1.plain) =
      calls.map fun call => (directReply env call).plain := by
  induction calls generalizing l with
  | nil => rfl
  | cons call calls ih =>
    have hs := h.serve hr call
    rw [serveAll, List.map_cons, List.map_cons, hs.2.1, ih hs.1]

theorem serveAll_keeps (hr : env.Regular) (h : l.Ready env) {calls : List Call} {k : Edition}
    {p : Product} {i : Nat} {r : Reply} {m : Linker}
    (hi : (serveAll env l calls)[i]? = some (r, m)) (hk : m.modules.get? k = some (.ready p))
    (d : Nat) {r' : Reply} {m' : Linker}
    (hd : (serveAll env l calls)[i + d]? = some (r', m'))
    (hstay : Stays (serveAll env l calls) i (i + d) k) :
    m'.modules.get? k = some (.ready p) := by
  -- from call to call: a slot that is taken all the time is never evicted in between
  induction d generalizing r' m' with
  | zero =>
    rw [Nat.add_zero, hi] at hd
    cases hd
    exact hk
  | succ d ih =>
    have hlt : i + d < (serveAll env l calls).length := by
      have hh := (List.getElem?_eq_some_iff.1 hd).1
      omega
    obtain ⟨⟨s, n⟩, hn⟩ : ∃ served, (serveAll env l calls)[i + d]? = some served :=
      ⟨_, List.getElem?_eq_getElem hlt⟩
    have hk' := ih hn fun j s n hij hj => hstay j s n hij (by omega)
    rcases serveAll_next hr h hn hd hk' with hk | hk
    · exact hk
    · exact absurd hk (hstay (i + (d + 1)) r' m' (by omega) (by omega) hd)

end Linker

open Linker Crew

namespace Linker.Call

/-- The calling thread at its beginning; documents are forgotten at once. -/
def caller? (env : ImportEnv) : Call → Option Caller
  | build document => some (.reading document)
  | follow importing depth edge =>
    some (.resolving importing depth edge (.follow env.maxDepth importing depth edge))
  | forget _ => none

end Linker.Call

namespace Caller

def call? : Caller → Option Call
  | reading document | built _ document _ | failed document => some (.build document)
  | announcing entry .. | collecting entry _ | following entry .. => some (.build entry.document)
  | resolving importing depth edge _ | resolved importing depth edge _ =>
    some (.follow importing depth edge)
  | unwound => none

def reply? : Caller → Option Reply
  | built _ _ module => some (.built (.ok (.done module)))
  | failed document => some (.built (.error (.noTree document.uri)))
  | resolved _ _ _ outcome => some (.followed (.done outcome))
  | _ => none

end Caller

section Schedules

variable {env : ImportEnv} {workers : Nat} {origin : Option SyntaxTree → Document → Prop}
  {due : Nat → Outcome Node → Prop} {deed : Deed} {l l' : Linker} {c c' : Crew}

theorem Caller.Step.call?_eq {a a' : Caller} (h : Caller.Step env deed a l a' l')
    (hcalm : deed.isCalm) (hs : a.Sound env ImportEnv.nothing origin due l.tickets) :
    a'.call? = a.call? := by
  cases h with
  | readUnwound document => cases hcalm
  | followUnwound entry r rs => exact hs.2.2.elim
  | resolveUnwound importing depth edge => exact hs.elim
  | _ => rfl

/-- An entry document with what the module source gives for it. -/
def Sourced (env : ImportEnv) (tree? : Option SyntaxTree) (document : Document) : Prop :=
  env.source document = (tree?.map Reading.tree).getD .failed

theorem Linker.Call.sound (hr : env.Regular) {call : Call} {a : Caller}
    (ha : call.caller? env = some a) (bound : Nat) :
    a.Sound env ImportEnv.nothing (Sourced env) due bound := by
  cases call with
  | build document =>
    cases ha
    exact ⟨fun _ hs => hs, fun hs => hs⟩
  | follow importing depth edge =>
    cases ha
    exact Errand.sound_follow hr importing depth edge
  | forget uri => cases ha

theorem Caller.Sound.reply {a : Caller} {bound : Nat}
    (h : a.Sound env ImportEnv.nothing (Sourced env) due bound) (ho : a.isOver) :
    ∃ call reply, a.call? = some call ∧ a.reply? = some reply ∧
      reply.plain = (directReply env call).plain := by
  cases a with
  | built tree document module =>
    obtain ⟨hs, hp⟩ := h
    have hs : env.source document = .tree tree := hs
    refine ⟨_, _, rfl, rfl, ?_⟩
    rw [directReply, ImportEnv.directBuild, hs]
    exact congrArg (fun n => Reply.built (.ok (.done n))) hp
  | failed document =>
    have hs : env.source document = .failed := h
    refine ⟨_, _, rfl, rfl, ?_⟩
    rw [directReply, ImportEnv.directBuild, hs]
    rfl
  | resolved importing depth edge outcome =>
    exact ⟨_, _, rfl, rfl, congrArg (fun o => Reply.followed (.done o)) h⟩
  | unwound => exact h.elim
  | _ => cases ho

theorem Errand.Step.distinct {α : Type} {e e' : Errand α} (h : Errand.Step env deed e l e' l')
    (hd : Table.Distinct l.modules) : Table.Distinct l'.modules := by
  cases h with
  | @granted k _ next hk => exact hd.insert k .pending
  | publish k p next => exact hd.insert k (.ready p)
  | abandon k next => exact hd.erase k
  | _ => exact hd

theorem Caller.Step.distinct {a a' : Caller} (h : Caller.Step env deed a l a' l')
    (hd : Table.Distinct l.modules) : Table.Distinct l'.modules := by
  cases h with
  | follow entry r rs h => exact h.distinct hd
  | resolve importing depth edge h => exact h.distinct hd
  | _ => exact hd

namespace Crew

theorem Step.distinct (h : Step env deed c c') (hd : Table.Distinct c.linker.modules) :
    Table.Distinct c'.linker.modules := by
  cases h with
  | call active pre post h => exact h.distinct hd
  | work ticket pre post callers h => exact h.distinct hd
  | _ => exact hd

/-- What a crew comes to under calls.  Callers come, documents are forgotten, and callers and
workers go on, at any time and in any order; no wait takes too long and no build is thrown out. -/
inductive Serves (env : ImportEnv) (workers : Nat) : Crew → Prop where
  | start : Serves env workers ⟨.ofWorkers workers, [], []⟩
  | call {c : Crew} {call : Call} {a : Caller} (h : Serves env workers c)
      (ha : call.caller? env = some a) :
      Serves env workers { c with callers := a :: c.callers }
  | forget {c : Crew} (h : Serves env workers c) (uri : Uri) :
      Serves env workers { c with linker := c.linker.forget uri }
  | step {c c' : Crew} {deed : Deed} (h : Serves env workers c) (hcalm : deed.isCalm)
      (s : Step env deed c c') : Serves env workers c'

structure Serving (env : ImportEnv) (workers : Nat) (c : Crew) : Prop where
  sound : ∃ due, c.Sound env ImportEnv.nothing (Sourced env) due
  manned : c.Manned env workers
  distinct : Table.Distinct c.linker.modules

theorem Serving.step (hr : env.Regular) (h : c.Serving env workers) (hcalm : deed.isCalm)
    (s : Step env deed c c') : c'.Serving env workers := by
  obtain ⟨due, hs⟩ := h.sound
  exact ⟨s.sound hr hcalm hs, s.manned hr hcalm h.manned, s.distinct h.distinct⟩

theorem Serves.serving (hr : env.Regular) (h : Serves env workers c) : c.Serving env workers := by
  induction h with
  | start =>
    refine ⟨⟨fun _ _ => True, faithful_ofWorkers env workers, fun job hj => ?_, fun ht => ?_,
      fun a ha => ?_⟩, manned_ofWorkers env workers, Table.distinct_empty⟩
    · cases hj
    · simp [ofWorkers] at ht
    · cases ha
  | @call c call a _ ha ih =>
    obtain ⟨due, hs⟩ := ih.sound
    refine ⟨⟨due, hs.faithful, hs.jobs, hs.replies, fun b hb => ?_⟩,
      ih.manned.arrive fun e he => ?_, ih.distinct⟩
    · rcases List.mem_cons.1 hb with rfl | hb
      · exact Call.sound hr ha _
      · exact hs.callers b hb
    · cases call with
      | follow importing depth edge =>
        cases ha
        cases he
        exact ⟨depth, [], Errand.fills_follow hr importing depth edge⟩
      | _ => cases ha <;> cases he
  | forget _ uri ih =>
    obtain ⟨due, hs⟩ := ih.sound
    have hm := ih.manned
    refine ⟨⟨due, hs.faithful.forget ih.distinct uri, hs.jobs, hs.replies, hs.callers⟩,
      ⟨hm.queue, ⟨hm.covered.1, fun k hk => hm.covered.2 k ?_⟩, hm.replies, hm.workers⟩,
      ih.distinct.filter _⟩
    exact (SharedStore.get?_prune_eq_pending ih.distinct).1 hk
  | step _ hcalm s ih => exact ih.step hr hcalm s

theorem Step.calls (s : Step env deed c c') (hcalm : deed.isCalm)
    (hs : c.Sound env ImportEnv.nothing origin due) :
    c'.callers.map Caller.call? = c.callers.map Caller.call? := by
  cases s with
  | call active pre post h =>
    have ha := h.call?_eq hcalm (hs.callers _ (by simp))
    simp only [List.map_append, List.map_cons, ha]
  | _ => rfl

theorem Serving.calmly (hr : env.Regular) (h : c.Serving env workers) (hrun : Calmly env c c') :
    c'.Serving env workers ∧ c'.callers.map Caller.call? = c.callers.map Caller.call? := by
  obtain ⟨deeds, hcalm, hrun⟩ := hrun
  induction hrun with
  | refl => exact ⟨h, rfl⟩
  | tail _ s ih =>
    obtain ⟨hm, hcalls⟩ := ih fun d hd => hcalm d (List.mem_cons_of_mem _ hd)
    have hnow := hcalm _ List.mem_cons_self
    obtain ⟨due, hs⟩ := hm.sound
    exact ⟨hm.step hr hnow s, (s.calls hnow hs).trans hcalls⟩

theorem Step.aside (s : Step env deed c c') (others : List Caller) :
    Step env deed { c with callers := c.callers ++ others }
      { c' with callers := c'.callers ++ others } := by
  cases s with
  | call active pre post h =>
    simpa only [List.append_assoc, List.cons_append] using Step.call active pre (post ++ others) h
  | take active callers hi hq => exact .take active (callers ++ others) hi hq
  | work ticket pre post callers h => exact .work ticket pre post (callers ++ others) h
  | reply l ticket result pre post callers =>
    exact .reply l ticket result pre post (callers ++ others)

theorem Calmly.aside (h : Calmly env c c') (others : List Caller) :
    Calmly env { c with callers := c.callers ++ others }
      { c' with callers := c'.callers ++ others } := by
  obtain ⟨deeds, hcalm, hrun⟩ := h
  induction hrun with
  | refl => exact .refl _
  | tail _ s ih =>
    exact (ih fun d hd => hcalm d (List.mem_cons_of_mem _ hd)).tail (s.aside others)
      (hcalm _ List.mem_cons_self)

theorem Serves.calmly (h : Serves env workers c) (hrun : Calmly env c c') :
    Serves env workers c' := by
  obtain ⟨deeds, hcalm, hrun⟩ := hrun
  induction hrun with
  | refl => exact h
  | tail _ s ih =>
    exact (ih fun d hd => hcalm d (List.mem_cons_of_mem _ hd)).step (hcalm _ List.mem_cons_self) s

end Crew

theorem Caller.reply?_of_result? {a : Caller} {result : Except EngineError Node}
    (h : a.result? = some result) : a.reply? = some (.built (result.map .done)) := by
  cases a <;> cases h <;> rfl

/-- A call that is served while nothing else happens is served under one of the schedules. -/
theorem Crew.Serves.serve (hr : env.Regular) (hl : l.Ready env) {callers : List Caller}
    (h : Serves env workers ⟨l, [], callers⟩) (call : Call) :
    ∃ arrived, Serves env workers ⟨(l.serve env call).2, [], arrived ++ callers⟩ ∧
      ∀ a, call.caller? env = some a →
        ∃ b ∈ arrived, b.call? = some call ∧ b.reply? = some (l.serve env call).1 := by
  cases call with
  | build document =>
    obtain ⟨b, result, l', hres, hb, _, _, _, _, hrun⟩ :=
      buildEntry_spec hr hl.quiet hl.queue document
    have hbegun : Serves env workers ⟨l, [], .reading document :: callers⟩ :=
      h.call (show Call.caller? env (.build document) = _ from rfl)
    have hgo := hrun.aside callers
    have hcalls := ((hbegun.serving hr).calmly hr hgo).2
    simp only [Linker.serve, hb]
    exact ⟨[b], hbegun.calmly hgo, fun a _ => ⟨b, List.mem_cons_self, (List.cons.inj hcalls).1,
      Caller.reply?_of_result? hres⟩⟩
  | follow importing depth edge =>
    obtain ⟨o, l', hf, _, _, _, _, hrun⟩ :=
      follow_spec hr hl.quiet hl.queue importing depth edge
    have hbegun := h.call (show Call.caller? env (.follow importing depth edge) = _ from rfl)
    simp only [Linker.serve, hf]
    exact ⟨[_], hbegun.calmly (hrun.aside callers), fun a _ => ⟨_, List.mem_cons_self, rfl, rfl⟩⟩
  | forget uri => exact ⟨[], h.forget uri, fun a ha => (nomatch ha)⟩

/-- Whatever `serveAll` comes to, replies included, comes to pass under one of the schedules. -/
theorem Crew.Serves.serveAll (hr : env.Regular) (hl : l.Ready env) {callers : List Caller}
    (h : Serves env workers ⟨l, [], callers⟩) {calls : List Call} {i : Nat} {reply : Reply}
    {m : Linker} (hi : (serveAll env l calls)[i]? = some (reply, m)) :
    ∃ callers, Serves env workers ⟨m, [], callers⟩ ∧
      ∀ call ∈ calls[i]?, ∀ a, call.caller? env = some a →
        ∃ b ∈ callers, b.call? = some call ∧ b.reply? = some reply := by
  induction calls generalizing l callers i with
  | nil => cases hi
  | cons call calls ih =>
    obtain ⟨arrived, hserves, hreply⟩ := h.serve hr hl call
    cases i with
    | zero =>
      have he : l.serve env call = (reply, m) := by simpa [Linker.serveAll] using hi
      rw [he] at hserves hreply
      refine ⟨_, hserves, fun call' hc a ha => ?_⟩
      cases hc
      obtain ⟨b, hb, hcall, hrep⟩ := hreply a ha
      exact ⟨b, List.mem_append_left _ hb, hcall, hrep⟩
    | succ i => exact ih (hl.serve hr call).1 hserves (by simpa [Linker.serveAll] using hi)

end Schedules

/-- Whatever calls a linker has served, each reply is that of plain recursion; and if two replies
lead to modules of one edition that was not evicted in between, these are one and the same node.
Under every schedule, too, whoever has come back from a call has the reply of plain recursion to it,
and everyone can come back. -/
theorem replies_refine_recursion {env : ImportEnv} (hr : env.Regular) {workers : Nat}
    (hw : 0 < workers) (calls : List Call) :
    (serveAll env (.ofWorkers workers) calls).map (fun served => served.1.plain) =
      calls.map (fun call => (directReply env call).plain) ∧
    (∀ (i j : Nat) (r r' : Reply) (m m' : Linker) (a b : Node), i ≤ j →
      (serveAll env (.ofWorkers workers) calls)[i]? = some (r, m) →
      (serveAll env (.ofWorkers workers) calls)[j]? = some (r', m') →
      r.LeadsTo a → r'.LeadsTo b → a.edition = b.edition →
      Stays (serveAll env (.ofWorkers workers) calls) i j a.edition → a = b) ∧
    ∀ c, Serves env workers c →
      (∀ a ∈ c.callers, a.isOver → ∃ call reply, a.call? = some call ∧ a.reply? = some reply ∧
        reply.plain = (directReply env call).plain) ∧
      (∀ c', Calmly env c c' → c'.callers.map Caller.call? = c.callers.map Caller.call?) ∧
      ∃ c', Calmly env c c' ∧ ∀ a ∈ c'.callers, a.isOver := by
  have h := ready_ofWorkers env hw
  refine ⟨plain_serveAll hr h calls, fun i j r r' m m' a b hij hi hj ha hb he hstay => ?_,
    fun c hc => ?_⟩
  · obtain ⟨d, rfl⟩ := Nat.exists_eq_add_of_le hij
    have hhold := (serveAll_inv hr h hi).2 a ha
    have hk := serveAll_keeps hr h hi hhold d hj hstay
    have hb := (serveAll_inv hr h hj).2 b hb
    rw [Holds, ← he, hk] at hb
    cases hb
    rfl
  · have hserving := hc.serving hr
    obtain ⟨due, hs⟩ := hserving.sound
    refine ⟨fun a ha ho => (hs.callers a ha).reply ho, fun c' hrun => ?_, ?_⟩
    · exact (hserving.calmly hr hrun).2
    · exact completes hr hw hs hserving.manned

theorem replies_refine_recursion_diamond : diamond.Regular ∧ 0 < 2 ∧
    (serveAll diamond (.ofWorkers 2) [.build diamondEntry, .forget diamondEntry.uri,
      .follow diamondEntry 0 ⟨.plain, "b.pkl".toList⟩]).map (fun served => served.1.plain) =
    [(directReply diamond (.build diamondEntry)).plain, .forgotten,
      (directReply diamond (.follow diamondEntry 0 ⟨.plain, "b.pkl".toList⟩)).plain] := by
  have hr : diamond.Regular := regular_sourceOf (Catalog.honest_ofFiles _ _) _ _
  exact ⟨hr, by decide, (replies_refine_recursion hr (by decide) _).1⟩

end ModuleLens
