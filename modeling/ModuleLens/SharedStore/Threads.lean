import ModuleLens.SharedStore

/-! Threads at a shared store.  A thread that needs a value looks at its slot: it takes a ready
value, goes to sleep at a pending slot, and otherwise makes the value itself.  Making a value ends
with the value published or, if the maker is thrown out, with the slot cleared; in both cases the
sleepers are told afterwards, in a step of its own.  A thread may need further values while it makes
one, so it keeps a stack of requests; it may also look a value up without waiting, which changes
nothing, and evict values.  A step of one thread is `Threads.step`; every interleaving is a sequence
of such steps. -/

namespace ModuleLens

inductive Answer (ν : Type) where
  | value (v : ν)
  | timedOut
  | unwound
deriving DecidableEq, Repr

def Answer.timedOutMessage (milliseconds : Nat) : String :=
  "timed out after " ++ toString milliseconds ++ "ms waiting for a cache entry"

inductive Phase (κ ν : Type) where
  | looking (key : κ)
  | asleep (key : κ)
  | late (key : κ)
  | making (key : κ)
  | telling (key : κ) (answer : Answer ν)
  | over (key : κ) (answer : Answer ν)
deriving DecidableEq, Repr

inductive Action (κ ν : Type) where
  | request (key : κ)
  | look
  | rouse
  | expire
  | publish (value : ν)
  | unwind
  | tell
  | leave
  | peek (key : κ)
  | remove (key : κ)
  | prune (keep : κ → ν → Bool)

/-- A shared store and the requests of each thread, the innermost first. -/
structure Threads (κ ν : Type) where
  store : SharedStore κ ν := {}
  active : Table Nat (List (Phase κ ν)) := {}

namespace Threads

variable {κ ν : Type}

def wake : List (Phase κ ν) → List (Phase κ ν)
  | .asleep key :: rest => .looking key :: rest
  | stack => stack

def frames (s : Threads κ ν) (thread : Nat) : List (Phase κ ν) := (s.active.get? thread).getD []

def setFrames (s : Threads κ ν) (thread : Nat) (stack : List (Phase κ ν)) : Threads κ ν :=
  { s with
    active := if stack.isEmpty then s.active.erase thread else s.active.insert thread stack }

theorem frames_setFrames (s : Threads κ ν) (thread t : Nat) (stack : List (Phase κ ν)) :
    (s.setFrames thread stack).frames t = if t = thread then stack else s.frames t := by
  by_cases h : stack.isEmpty
  · simp only [List.isEmpty_iff] at h
    subst h
    by_cases ht : t = thread <;> simp [frames, setFrames, Table.get?_erase, ht]
  · by_cases ht : t = thread <;> simp [frames, setFrames, h, Table.get?_insert, ht]

/-- Whether a thread can begin something: it waits for nothing. -/
def isFree : List (Phase κ ν) → Bool
  | [] => true
  | .making _ :: _ => true
  | _ => false

variable [DecidableEq κ]

def step (s : Threads κ ν) (thread : Nat) (action : Action κ ν) : Option (Threads κ ν) :=
  match action, s.frames thread with
  | .request key, stack =>
    if isFree stack then some (s.setFrames thread (.looking key :: stack)) else none
  | .look, .looking key :: rest =>
    match s.store.claim key with
    | .found value => some (s.setFrames thread (.over key (.value value) :: rest))
    | .busy => some (s.setFrames thread (.asleep key :: rest))
    | .granted store => some ({ s with store }.setFrames thread (.making key :: rest))
  | .look, .late key :: rest =>
    match s.store.value? key with
    | some value => some (s.setFrames thread (.over key (.value value) :: rest))
    | none => some (s.setFrames thread (.over key .timedOut :: rest))
  | .rouse, .asleep key :: rest => some (s.setFrames thread (.looking key :: rest))
  | .expire, .asleep key :: rest => some (s.setFrames thread (.late key :: rest))
  | .publish value, .making key :: rest =>
    some ({ s with store := s.store.publish key value }.setFrames thread
      (.telling key (.value value) :: rest))
  | .unwind, .making key :: rest =>
    some ({ s with store := s.store.abandon key }.setFrames thread (.telling key .unwound :: rest))
  | .tell, .telling key answer :: rest =>
    some ({ s with active := s.active.map wake }.setFrames thread (.over key answer :: rest))
  | .leave, .over _ _ :: rest => some (s.setFrames thread rest)
  | .peek _, stack => if isFree stack then some s else none
  | .remove key, stack =>
    if isFree stack then some { s with store := (s.store.remove key).2 } else none
  | .prune keep, stack =>
    if isFree stack then some { s with store := s.store.prune keep } else none
  | _, _ => none

/-- The steps of one thread, one after the other; a step that it cannot take is left out. -/
def run (s : Threads κ ν) (thread : Nat) (actions : List (Action κ ν)) : Threads κ ν :=
  actions.foldl (fun s action => (s.step thread action).getD s) s

def answer? (s : Threads κ ν) (thread : Nat) : Option (Answer ν) :=
  match s.frames thread with
  | .over _ answer :: _ => some answer
  | _ => none

def isMaking (s : Threads κ ν) (thread : Nat) : Bool :=
  match s.frames thread with
  | .making _ :: _ => true
  | _ => false

/-- A request of a thread while all others stand still.  If the value has to be made, `make` does
it, perhaps with further requests of the same thread, or is thrown out; what it reports is handed
on.  If someone else makes the value, the time will be up. -/
def request {ω : Type} (s : Threads κ ν) (thread : Nat) (key : κ)
    (make : Threads κ ν → (Option ν × ω) × Threads κ ν) : (Answer ν × Option ω) × Threads κ ν :=
  let s := s.run thread [.request key, .look]
  let (report, s) : Option ω × Threads κ ν :=
    if s.isMaking thread then
      match make s with
      | ((some value, report), s) => (some report, s.run thread [.publish value, .tell])
      | ((none, report), s) => (some report, s.run thread [.unwind, .tell])
    else (none, s.run thread [.expire, .look])
  (((s.answer? thread).getD .timedOut, report), s.run thread [.leave])

/-- Requests of several threads for one key at once: all look before any value is made.  The `r`-th
value made is `value r`; also gives how many were made. -/
def contend (s : Threads κ ν) (threads : List Nat) (key : κ) (value : Nat → ν) :
    List (Answer ν) × Nat × Threads κ ν :=
  let s := threads.foldl (fun s t => s.run t [.request key, .look]) s
  let (made, s) := threads.foldl
    (fun (made, s) t =>
      if s.isMaking t then (made + 1, s.run t [.publish (value made), .tell]) else (made, s))
    (0, s)
  let s := threads.foldl (fun s t => s.run t [.look, .expire, .look]) s
  let answers := threads.map fun t => (s.answer? t).getD .timedOut
  (answers, made, threads.foldl (fun s t => s.run t [.leave]) s)

end Threads

end ModuleLens
