import ModuleLens.Linker.Crew
import ModuleLens.Node.Navigation
import ModuleLens.TreeStore

/-! Following imports.  The imports of an entry document are handed to workers before it is built;
a worker looks its module up, builds it one import deeper and follows that module's imports itself.
Built modules are kept in a shared store by location, text and depth, so that importers of one
module at one depth share it.  Cycles end at the depth limit.

A module source can fail, be thrown out, or never come back.  A worker that is thrown out loses its
reply; one that never comes back is gone for good, with the slots it has claimed.  Who waits for
such a slot, or for such a worker's reply, waits in vain.  The calling thread waits by the same
rule as the workers: its wait ends after those that began before it.  Workers that still wait when
a call returns go on in the next calls. -/

namespace ModuleLens

/-- How something ends that may be thrown out or never come back. -/
inductive Fate (α : Type) where
  | done (value : α)
  | unwound
  | stuck
deriving DecidableEq, Repr

def Fate.map {α β : Type} (f : α → β) : Fate α → Fate β
  | done a => done (f a)
  | unwound => unwound
  | stuck => stuck

namespace Linker

variable {α : Type}

def ofWorkers (workers : Nat) : Linker := { idle := workers }

def await (env : ImportEnv) (stop : Linker → Bool) (l : Linker) : Linker :=
  letRun env stop l.waits { l with waits := l.waits + 1 }

def settle (env : ImportEnv) (l : Linker) : Linker := letRun env (fun _ => false) 0 l

def perform (env : ImportEnv) (l : Linker) (errand : Errand α) : Fate α × Linker :=
  let wait (l : Linker) (edition : Edition) : Option (Claimed × Linker) :=
    some ((l.await env (isSettled · edition)).lookAgain edition)
  match run env wait errand l with
  | (.finished (some a), l) => (.done a, l)
  | (.finished none, l) => (.unwound, l)
  | (_, l) => (.stuck, l)

def follow (env : ImportEnv) (l : Linker) (importing : Document) (depth : Nat) (edge : ImportEdge) :
    Fate (Outcome Node) × Linker :=
  let (fate, l) := l.perform env (.follow env.maxDepth importing depth edge)
  (fate, l.settle env)

/-- The numbers of the jobs for each import, the oldest first. -/
abbrev Tickets := Std.TreeMap ImportEdge (List Nat) ImportEdge.order

def addTicket (tickets : Tickets) (edge : ImportEdge) (ticket : Nat) : Tickets :=
  tickets.insert edge (ticket :: tickets.getD edge [])

def takeTicket (tickets : Tickets) (edge : ImportEdge) : Option (Nat × Tickets) :=
  match tickets.getD edge [] with
  | [] => none
  | ticket :: rest => some (ticket, tickets.insert edge rest)

def ticketsOf (numbered : List (ImportEdge × Nat)) : Tickets :=
  numbered.foldr (fun (edge, ticket) tickets => addTicket tickets edge ticket) {}

def announce (env : ImportEnv) (l : Linker) (importing : Document) (edges : List ImportEdge) :
    Tickets × Linker :=
  let numbered := edges.zipIdx l.tickets
  let jobs := numbered.map fun (edge, ticket) =>
    Job.mk ticket (.follow env.maxDepth importing 0 edge)
  (ticketsOf numbered,
    { l with queue := l.queue ++ jobs, tickets := l.tickets + edges.length })

/-- Waits for the reply to a job.  A lost reply means that there is no such module. -/
def awaitReply (env : ImportEnv) (l : Linker) (ticket : Nat) : Outcome Node × Linker :=
  let l := l.await env fun l => l.replies.contains ticket
  match l.replies[ticket]? with
  | some (some outcome) => (outcome, l)
  | some none => (.notFound, l)
  | none => (.timedOut, l)

/-- Answers a request of an entry document: by the reply to its job, or, if it was not announced,
on the spot. -/
def answer (env : ImportEnv) (importing : Document) (l : Linker) (tickets : Tickets)
    (edge : ImportEdge) : Fate (Outcome Node) × Tickets × Linker :=
  match takeTicket tickets edge with
  | some (ticket, rest) =>
    let (outcome, l) := l.awaitReply env ticket
    (.done outcome, rest, l)
  | none =>
    let (fate, l) := l.perform env (.follow env.maxDepth importing 0 edge)
    (fate, tickets, l)

/-- Answers the requests of an entry document in order, up to the first that does not come to an
end, and adds what comes of them to `answers`. -/
def collect (env : ImportEnv) (importing : Document) (answers : Node.Answers) :
    Linker → Tickets → List Node.Request → Fate Node.Answers × Linker
  | l, _, [] => (.done answers, l)
  | l, tickets, r :: rs =>
    match l.answer env importing tickets r.edge with
    | (.done outcome, tickets, l) =>
      collect env importing (answers.insert r.index outcome) l tickets rs
    | (.unwound, _, l) => (.unwound, l)
    | (.stuck, _, l) => (.stuck, l)

def buildEntryTree (env : ImportEnv) (l : Linker) (tree : SyntaxTree) (document : Document) :
    Fate Node × Linker :=
  let draft := draftModule l.drafts tree document 0
  let (tickets, l) :=
    { l with drafts := l.drafts + 1 }.announce env document (tree.scan document.text)
  let (answers, l) := collect env document {} l tickets draft.requests
  (answers.map draft.link, l.settle env)

def buildEntry (env : ImportEnv) (l : Linker) (document : Document) :
    Except EngineError (Fate Node) × Linker :=
  let l := l.noteCall document.uri
  match env.source document with
  | .failed => (.error (.noTree document.uri), l)
  | .unwinds => (.ok .unwound, l)
  | .hangs => (.ok .stuck, l)
  | .tree tree =>
    let (fate, l) := l.buildEntryTree env tree document
    (.ok fate, l)

/-- Whether a stored module stays when a document changes: it is not of that document and no import
chain of it leads there. -/
def survives (uri : Uri) (key : Edition) : Product → Bool
  | .module node => key.uri ≠ uri && !node.leadsTo uri
  | .failed => key.uri ≠ uri

def forget (l : Linker) (uri : Uri) : Linker :=
  { l with modules := SharedStore.prune l.modules (survives uri) }

end Linker

end ModuleLens
