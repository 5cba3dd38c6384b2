import ModuleLens.Node.Draft
import Std.Data.TreeMap

/-! Building a module.  A draft is numbered, so that its nodes can be told apart; the imports in it
are listed in the order in which they are followed; and the outcomes of following them are put
into their nodes. -/

namespace ModuleLens

namespace Node

mutual

/-- Numbers a node and everything below it, parents first, from `next` on; also gives the first
number that is still free. -/
def number (build next : Nat) : Node → Node × Nat
  | mk info label outcome children =>
    let (cs, free) := numberAll build (next + 1) children
    (mk { info with id := ⟨build, next⟩ } label outcome cs, free)

def numberAll (build next : Nat) : List Node → List Node × Nat
  | [] => ([], next)
  | c :: cs =>
    let (c, free) := number build next c
    let (cs, free) := numberAll build free cs
    (c :: cs, free)

end

end Node

/-- When children in a role are visited while imports are followed: names and headers before
bodies, and what fits no slot last. -/
def Role.rank : Role → Nat
  | .root | .header | .clause | .name | .path | .left | .operator => 0
  | .superclass | .parameters | .type | .right => 1
  | .objectBody | .result => 2
  | .key => 3
  | .value | .body | .argument | .parameter | .member => 4
  | .recovered | .rejected => 5

namespace Node

structure Request where
  index : Nat
  edge : ImportEdge
deriving DecidableEq, Repr

def ownRequest (n : Node) : List Request :=
  match n.clause?.bind ImportClause.edge? with
  | some edge => [⟨n.id.index, edge⟩]
  | none => []

mutual

/-- The imports below a node, in the order in which they are followed: its own, and then those of
its children, rank by rank. -/
def requests : Node → List Request
  | mk info label outcome children =>
    (mk info label outcome children).ownRequest ++ requestsAt 0 children ++ requestsAt 1 children ++
      requestsAt 2 children ++ requestsAt 3 children ++ requestsAt 4 children ++
      requestsAt 5 children

def requestsAt (rank : Nat) : List Node → List Request
  | [] => []
  | c :: cs => (if c.role.rank = rank then requests c else []) ++ requestsAt rank cs

end

/-- The outcomes of following imports, by the place of the import node in its build. -/
abbrev Answers := Std.TreeMap Nat (Outcome Node)

mutual

def link (answers : Answers) : Node → Node
  | mk info label outcome children =>
    mk info label (answers[info.id.index]?.or outcome) (linkAll answers children)

def linkAll (answers : Answers) : List Node → List Node
  | [] => []
  | c :: cs => link answers c :: linkAll answers cs

end

end Node

def draftModule (build : Nat) (root : SyntaxTree) (document : Document) (depth : Nat) : Node :=
  ((DraftContext.mk document depth (.of document.text)).draftModule root |>.number build 0).1

/-- The module that a draft becomes when its imports are answered by `answer`, request by
request. -/
def linkModule (draft : Node) (answer : ImportEdge → Outcome Node) : Node :=
  draft.link (draft.requests.foldl (fun answers r => answers.insert r.index (answer r.edge)) {})

/-- What a build asks of whoever follows its imports. -/
inductive ImportCall where
  | announce (edges : List ImportEdge)
  | follow (edge : ImportEdge)
deriving DecidableEq, Repr

/-- The calls of a build, in order: the imports of the tree are announced at once, if there are any,
and those of the module are followed one by one. -/
def importCalls (build : Nat) (root : SyntaxTree) (document : Document) (depth : Nat) :
    List ImportCall :=
  let edges := root.scan document.text
  (if edges.isEmpty then [] else [.announce edges]) ++
    (draftModule build root document depth).requests.map fun r => .follow r.edge

end ModuleLens
