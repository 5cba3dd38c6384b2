import ModuleLens.Fifo

/-! Workers on one queue.  Jobs are started in the order in which they were submitted, each by a
worker that is free; a job that is thrown out frees its worker like any other.  A closed queue
takes no more jobs, and its workers finish what is left. -/

namespace ModuleLens

structure WorkQueue (ι : Type) where
  workers : Nat
  idle : List Nat := List.range workers
  waiting : Fifo ι := {}
  running : List (Nat × ι) := []
  /-- Every job that was started, with its worker, the latest first. -/
  history : List (Nat × ι) := []
  closed : Bool := false

namespace WorkQueue

variable {ι : Type}

def start (workers : Nat) : WorkQueue ι := { workers := max 1 workers }

def started (q : WorkQueue ι) : List (Nat × ι) := q.history.reverse

/-- Adds a job at the end, unless the queue is closed. -/
def submit (q : WorkQueue ι) (job : ι) : Option (WorkQueue ι) :=
  if q.closed then none else some { q with waiting := q.waiting.push job }

def take (q : WorkQueue ι) : Option (WorkQueue ι) :=
  match q.idle with
  | [] => none
  | w :: idle =>
    q.waiting.pop?.map fun (job, waiting) =>
      { q with idle, waiting, running := (w, job) :: q.running, history := (w, job) :: q.history }

def finish (q : WorkQueue ι) (worker : Nat) : Option (WorkQueue ι) :=
  if q.running.any fun r => r.1 == worker then
    some
      { q with
        idle := worker :: q.idle
        running := q.running.filter fun r => r.1 != worker }
  else none

def close (q : WorkQueue ι) : WorkQueue ι := { q with closed := true }

def submitAll (q : WorkQueue ι) (jobs : List ι) : WorkQueue ι :=
  jobs.foldl (fun q job => (q.submit job).getD q) q

def takeAll (q : WorkQueue ι) : WorkQueue ι :=
  (List.range q.workers).foldl (fun q _ => q.take.getD q) q

def finishAll (q : WorkQueue ι) : WorkQueue ι :=
  (q.running.map Prod.fst).foldl (fun q w => (q.finish w).getD q) q

def drain (q : WorkQueue ι) : WorkQueue ι :=
  (List.range (q.waiting.size + 1)).foldl (fun q _ => q.finishAll.takeAll) q |>.finishAll

def workersKnown (q : WorkQueue ι) : Bool := q.history.all fun r => r.1 < q.workers

end WorkQueue

end ModuleLens
