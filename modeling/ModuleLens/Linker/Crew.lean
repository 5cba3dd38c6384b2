import ModuleLens.Linker.Descent
import ModuleLens.Linker.Errand
import ModuleLens.SharedStore
import Std.Data.TreeMap

/-! The workers that follow imports.  Jobs are started in the order in which they were handed in, as
long as there is a worker without one.  A worker goes on with its errand until the errand is over,
never comes back, or comes to a slot that is pending; then the worker waits.  It wakes up when the
slot is settled.  All waits may last equally long and nothing else takes time, so waits that are in
vain end in the order in which they began. -/

namespace ModuleLens

structure ImportEnv where
  catalog : Catalog
  source : Document → Reading
  maxDepth : Nat

structure Job where
  ticket : Nat
  errand : Errand (Outcome Node)

structure Waiter where
  /-- How many waits began before this one. -/
  since : Nat
  ticket : Nat
  edition : Edition
  next : Claimed → Errand (Outcome Node)

def Waiter.errand (w : Waiter) : Errand (Outcome Node) := .claim w.edition w.next

def Waiter.Below : Waiter → Waiter → Prop := InvImage (Relation.TransGen Errand.Below) Waiter.errand

structure Linker where
  modules : SharedStore Edition Product := {}
  /-- How many drafts were numbered; every draft gets a number of its own. -/
  drafts : Nat := 0
  /-- The documents that the module source was asked for, the latest first. -/
  calls : List Uri := []
  idle : Nat := 1
  /-- Jobs that no worker has started, the oldest first. -/
  queue : List Job := []
  waiting : List Waiter := []
  /-- The replies that have come; a worker that was thrown out replies with nothing. -/
  replies : Std.TreeMap Nat (Option (Outcome Node)) := {}
  tickets : Nat := 0
  waits : Nat := 0

namespace Linker

variable {α : Type}

def noteCall (l : Linker) (uri : Uri) : Linker :=
  { l with calls := uri :: l.calls, drafts := l.drafts + 1 }

/-- Does an errand up to its end or to a pending slot at which `wait` gives no answer. -/
def run (env : ImportEnv) (wait : Linker → Edition → Option (Claimed × Linker)) :
    Errand α → Linker → Errand α × Linker
  | .finished result, l => (.finished result, l)
  | .hung, l => (.hung, l)
  | .load importing path next, l => run env wait (next (env.catalog.lookup importing path)) l
  | .call document _ next, l =>
    run env wait (next (env.source document) l.drafts) (l.noteCall document.uri)
  | .claim edition next, l =>
    match l.modules.claim edition with
    | .found product => run env wait (next (.found product)) l
    | .granted modules => run env wait (next .granted) { l with modules }
    | .busy =>
      match wait l edition with
      | some (claimed, l) => run env wait (next claimed) l
      | none => (.claim edition next, l)
  | .publish edition product next, l =>
    run env wait next { l with modules := l.modules.publish edition product }
  | .abandon edition next, l =>
    run env wait next { l with modules := l.modules.abandon edition }

theorem run_below (env : ImportEnv) (wait : Linker → Edition → Option (Claimed × Linker))
    (e : Errand α) (l : Linker) :
    (run env wait e l).1 = e ∨ Relation.TransGen Errand.Below (run env wait e l).1 e := by
  have lift {d e f : Errand α} (h : d = e ∨ Relation.TransGen Errand.Below d e)
      (hf : Errand.Below e f) : d = f ∨ Relation.TransGen Errand.Below d f := by
    rcases h with rfl | h
    · exact .inr (.single hf)
    · exact .inr (.tail h hf)
  induction e generalizing l with
  | finished result => exact .inl rfl
  | hung => exact .inl rfl
  | load importing path next ih => exact lift (ih _ l) (.load importing path next _)
  | call document depth next ih => exact lift (ih _ _ _) (.call document depth next _ _)
  | claim edition next ih =>
    rw [run]
    split
    · exact lift (ih _ l) (.claim edition next _)
    · exact lift (ih _ _) (.claim edition next _)
    · split
      · exact lift (ih _ _) (.claim edition next _)
      · exact .inl rfl
  | publish edition product next ih => exact lift (ih _) (.publish edition product next)
  | abandon edition next ih => exact lift (ih _) (.abandon edition next)

def lookAgain (l : Linker) (edition : Edition) : Claimed × Linker :=
  match l.modules.claim edition with
  | .found product => (.found product, l)
  | .granted modules => (.granted, { l with modules })
  | .busy => (.expired, l)

def isSettled (l : Linker) (edition : Edition) : Bool :=
  match l.modules.claim edition with
  | .busy => false
  | _ => true

/-- A worker does an errand as far as it can: it replies, is gone, or has to wait. -/
def work (env : ImportEnv) (ticket : Nat) (errand : Errand (Outcome Node)) (l : Linker) :
    Option Waiter × Linker :=
  match run env (fun _ _ => none) errand l with
  | (.finished result, l) =>
    (none, { l with idle := l.idle + 1, replies := l.replies.insert ticket result })
  | (.claim edition next, l) =>
    (some ⟨l.waits, ticket, edition, next⟩, { l with waits := l.waits + 1 })
  | (_, l) => (none, l)

theorem work_below {env : ImportEnv} {ticket : Nat} {errand : Errand (Outcome Node)} {l : Linker}
    {w : Waiter} (h : (work env ticket errand l).1 = some w) :
    w.errand = errand ∨ Relation.TransGen Errand.Below w.errand errand := by
  have hr := run_below env (fun _ _ => none) errand l
  unfold work at h
  split at h
  · exact nomatch h
  · next edition next m hm =>
    rw [hm] at hr
    cases h
    exact hr
  · exact nomatch h

def start (env : ImportEnv) (l : Linker) (job : Job) (rest : List Job) : Linker :=
  let (waiter, m) := work env job.ticket job.errand { l with idle := l.idle - 1, queue := rest }
  { m with queue := rest, waiting := waiter.toList ++ l.waiting }

def wake (env : ImportEnv) (l : Linker) (i : Fin l.waiting.length) : Linker :=
  let w := l.waiting.get i
  let (claimed, m) := l.lookAgain w.edition
  let (waiter, m) := work env w.ticket (w.next claimed) m
  { m with
    queue := l.queue
    waiting :=
      match waiter with
      | some w => l.waiting.set i w
      | none => l.waiting.eraseIdx i }

def settled? (l : Linker) : Option (Fin l.waiting.length) :=
  l.waiting.findFinIdx? fun w => l.isSettled w.edition

/-- The worker that has waited longest, if its wait began before the wait of number `limit`. -/
def oldest? (l : Linker) (limit : Nat) : Option (Fin l.waiting.length) :=
  match (l.waiting.map Waiter.since).min? with
  | some first =>
    if first < limit then l.waiting.findFinIdx? fun w => w.since == first else none
  | none => none

/-- The jobs that can be started: none, if every worker has one. -/
def ready (l : Linker) : List Job := if 0 < l.idle then l.queue else []

def Less : Linker → Linker → Prop :=
  InvImage (Prod.Lex (· < ·) (Lower Waiter.Below)) fun l => (l.queue.length, l.waiting)

theorem less_wellFounded : WellFounded Less :=
  InvImage.wf _ (Prod.lex Nat.lt_wfRel
    ⟨_, Lower.wellFounded (InvImage.wf _ (WellFounded.transGen ⟨Errand.acc_below⟩))⟩).wf

theorem start_less {env : ImportEnv} {l : Linker} {job : Job} {rest : List Job}
    (h : l.ready = job :: rest) : Less (l.start env job rest) l := by
  have hq : l.queue = job :: rest := by
    unfold ready at h
    split at h
    · exact h
    · exact nomatch h
  refine Prod.Lex.left _ _ ?_
  rw [hq]
  exact Nat.lt_succ_self _

theorem wake_less (env : ImportEnv) (l : Linker) (i : Fin l.waiting.length) :
    Less (l.wake env i) l := by
  refine Prod.Lex.right _ ?_
  simp only [wake]
  split
  · next w hw =>
    have hb := work_below hw
    have hn := Errand.Below.claim (l.waiting.get i).edition (l.waiting.get i).next
      (l.lookAgain (l.waiting.get i).edition).1
    refine Lower.set i.isLt ?_
    rcases hb with hb | hb
    · exact Eq.mpr (congrArg (Relation.TransGen Errand.Below · _) hb) (.single hn)
    · exact .tail hb hn
  · exact Lower.eraseIdx i.isLt

/-- Lets the workers go on until `stop` holds or nothing is left to do for them but to wait longer
than the wait of number `limit`. -/
def letRun (env : ImportEnv) (stop : Linker → Bool) (limit : Nat) (l : Linker) : Linker :=
  if stop l then l
  else
    match l.settled? with
    | some i => letRun env stop limit (l.wake env i)
    | none =>
      match h : l.ready with
      | job :: rest =>
        have : Less (l.start env job rest) l := start_less h
        letRun env stop limit (l.start env job rest)
      | [] =>
        match l.oldest? limit with
        | some i => letRun env stop limit (l.wake env i)
        | none => l
termination_by less_wellFounded.wrap l
decreasing_by
  · exact wake_less env l i
  · exact this
  · exact wake_less env l i

end Linker

end ModuleLens
