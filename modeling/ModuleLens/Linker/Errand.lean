import ModuleLens.Catalog
import ModuleLens.Node.Link

/-! Errands: following an import, step by step.  An errand is what a thread still has to do.  It
looks a module up, claims the slot of the module in a shared store, asks for the tree of the
document, follows the imports of the draft one after the other and puts the module into its slot.
Every step that touches something shared is a constructor, so errands of several threads can be
interleaved at these steps.  Every step leads to a smaller errand; none goes on forever. -/

namespace ModuleLens

inductive Reading where
  | tree (tree : SyntaxTree)
  | failed
  | unwinds
  /-- The thread never comes back. -/
  | hangs

/-- What a built module is stored under. -/
structure Edition where
  depth : Nat
  uri : Uri
  text : Text
deriving DecidableEq

inductive Product where
  | module (node : Node)
  | failed

def Product.outcome : Product → Outcome Node
  | module node => .resolved node
  | failed => .notFound

inductive Claimed where
  | found (product : Product)
  /-- The module has to be made: the slot is pending now. -/
  | granted
  | expired

inductive Errand (α : Type) where
  /-- Nothing: there is a result, or the thread was thrown out. -/
  | finished (result : Option α)
  /-- Nothing, for the thread never comes back. -/
  | hung
  | load (importing : Uri) (path : Text) (next : Except CatalogError Document → Errand α)
  /-- Asks the module source for a document at a depth; the number is that of the draft. -/
  | call (document : Document) (depth : Nat) (next : Reading → Nat → Errand α)
  | claim (edition : Edition) (next : Claimed → Errand α)
  | publish (edition : Edition) (product : Product) (next : Errand α)
  | abandon (edition : Edition) (next : Errand α)

namespace Errand

variable {α β : Type}

def bind (k : Option α → Errand β) : Errand α → Errand β
  | finished result => k result
  | hung => hung
  | load importing path next => load importing path fun d => (next d).bind k
  | call document depth next =>
    call document depth fun reading build => (next reading build).bind k
  | claim edition next => claim edition fun c => (next c).bind k
  | publish edition product next => publish edition product (next.bind k)
  | abandon edition next => abandon edition (next.bind k)

/-- An errand and, with its result, another one; who is thrown out does not go on. -/
def andThen (e : Errand α) (k : α → Errand β) : Errand β :=
  e.bind fun
    | some a => k a
    | none => finished none

inductive Below : Errand α → Errand α → Prop where
  | load (importing : Uri) (path : Text) (next : Except CatalogError Document → Errand α)
      (d : Except CatalogError Document) : Below (next d) (load importing path next)
  | call (document : Document) (depth : Nat) (next : Reading → Nat → Errand α) (reading : Reading)
      (build : Nat) : Below (next reading build) (call document depth next)
  | claim (edition : Edition) (next : Claimed → Errand α) (c : Claimed) :
      Below (next c) (claim edition next)
  | publish (edition : Edition) (product : Product) (next : Errand α) :
      Below next (publish edition product next)
  | abandon (edition : Edition) (next : Errand α) : Below next (abandon edition next)

theorem acc_below (e : Errand α) : Acc Below e := by
  induction e with
  | finished result => exact ⟨_, fun _ h => nomatch h⟩
  | hung => exact ⟨_, fun _ h => nomatch h⟩
  | load importing path next ih => exact ⟨_, fun _ h => by cases h; exact ih _⟩
  | call document depth next ih => exact ⟨_, fun _ h => by cases h; exact ih _ _⟩
  | claim edition next ih => exact ⟨_, fun _ h => by cases h; exact ih _⟩
  | publish edition product next ih => exact ⟨_, fun _ h => by cases h; exact ih⟩
  | abandon edition next ih => exact ⟨_, fun _ h => by cases h; exact ih⟩

/-- Follows requests one after the other and adds what comes of them to `answers`. -/
def answerAll (answer : ImportEdge → Errand (Outcome Node)) (answers : Node.Answers) :
    List Node.Request → Errand Node.Answers
  | [] => finished (some answers)
  | r :: rs =>
    (answer r.edge).andThen fun outcome => answerAll answer (answers.insert r.index outcome) rs

/-- Makes the module of a document that was read, its imports followed by `answer`. -/
def make (answer : ImportEdge → Errand (Outcome Node)) (document : Document) (depth : Nat)
    (reading : Reading) (build : Nat) : Errand Product :=
  match reading with
  | .failed => finished (some .failed)
  | .unwinds => finished none
  | .hangs => hung
  | .tree tree =>
    let draft := draftModule build tree document depth
    (answerAll answer {} draft.requests).andThen fun answers =>
      finished (some (.module (draft.link answers)))

/-- Follows an import of a document at `depth`, with `levels` more levels allowed of `maxDepth`.
The slot of the module is claimed while it is made: it is filled at the end and cleared if the
thread is thrown out. -/
def followAt (maxDepth : Nat) : Nat → Document → Nat → ImportEdge → Errand (Outcome Node)
  | 0, _, _, _ => finished (some (.tooDeep maxDepth))
  | levels + 1, importing, depth, edge =>
    load importing.uri edge.path fun
      | .error _ => finished (some .notFound)
      | .ok document =>
        let edition : Edition := ⟨depth + 1, document.uri, document.text⟩
        claim edition fun
          | .found product => finished (some product.outcome)
          | .expired => finished (some .timedOut)
          | .granted =>
            call document (depth + 1) fun reading build =>
              (make (followAt maxDepth levels document (depth + 1)) document (depth + 1) reading
                build).bind fun
                | some product => publish edition product (finished (some product.outcome))
                | none => abandon edition (finished none)

def follow (maxDepth : Nat) (importing : Document) (depth : Nat) (edge : ImportEdge) :
    Errand (Outcome Node) :=
  followAt maxDepth (maxDepth - depth) importing depth edge

end Errand

end ModuleLens
