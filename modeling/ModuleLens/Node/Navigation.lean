import ModuleLens.Node.Reach
import ModuleLens.Text.Quoted

/-! Questions about a built module: what stands at a position, which nodes of a kind it has, where a
name is declared, which documents an import chain leads to, and what the tree looks like. -/

namespace ModuleLens

namespace Node

mutual

/-- The innermost node at a position, found by entering the first child that contains it. -/
def locate (uri : Uri) (p : Position) : Node → Node
  | mk info label outcome children =>
    (locateFirst uri p children).getD (mk info label outcome children)

/-- The innermost node at a position below the first of some nodes that contains it. -/
def locateFirst (uri : Uri) (p : Position) : List Node → Option Node
  | [] => none
  | c :: cs =>
    if c.uri = uri && c.range.contains p then some (locate uri p c) else locateFirst uri p cs

end

def at? (module : Node) (p : Position) : Option Node :=
  if module.range.contains p then some (module.locate module.uri p) else none

def texts (module : Node) (nodes : List Node) : List Text :=
  let scale := Scale.of module.document.text
  nodes.map fun n => scale.slice n.range.bytes

theorem texts_eq {module : Node} {nodes : List Node}
    (h : ∀ n ∈ nodes, n.document = module.document) : module.texts nodes = nodes.map text := by
  refine List.map_congr_left fun n hn => ?_
  rw [Scale.slice_eq, text, Extent.text, h n hn]

def identifiers (module : Node) : List Node :=
  module.descendants.filter fun n => n.identifier?.isSome

def classes (module : Node) : List Node :=
  module.descendants.filter fun n =>
    match n.label with
    | .classDeclaration .. => true
    | _ => false

def imports (module : Node) : List Node := module.descendants.filter fun n => n.clause?.isSome

def holderOf? (module node : Node) : Option Node :=
  findIn? (fun n => n.children.any fun c => c.id == node.id) [module]

def isParameter (n : Node) : Bool := n.label == .parameter

/-- The name that a node refers to: a variable's, or an identifier's inside a variable. -/
def refersTo? (module reference : Node) : Option Text :=
  match reference.label with
  | .variableReference => (reference.slot? .name).bind identifier?
  | .identifier name =>
    match module.holderOf? reference with
    | some parent => if parent.label == .variableReference then some name else none
    | none => none
  | _ => none

def declarationIn? (name : Text) (module : Node) : Option Node :=
  module.findBelow? fun n => n.declares? == some name && !n.isParameter

/-- The declaration that a node of a module refers to: the module is searched first, and then the
modules its imports lead to, nearer ones first. -/
def definition? (module reference : Node) : Option Node :=
  (module.refersTo? reference).bind fun name => (reach [module]).findSome? (declarationIn? name)

def leadsTo (uri : Uri) (module : Node) : Bool := (reach module.targets).any fun m => m.uri = uri

def describeLabel : Label → String
  | .identifier t | .stringLiteral t | .numberLiteral t => " " ++ String.ofList (Text.quote t)
  | .importClause c =>
    " " ++ c.kind.name ++
      match c.path with
      | some path => " " ++ String.ofList (Text.quote path)
      | none => ""
  | _ => ""

def describeInfo (indent : Nat) (info : NodeInfo) (label : Label) : String :=
  let r := info.range.positions
  "".pushn ' ' (2 * indent) ++ label.name ++ " " ++ toString r.start.line ++ ":" ++
    toString r.start.character ++ "-" ++ toString r.stop.line ++ ":" ++ toString r.stop.character ++
    describeLabel label ++ "\n"

mutual

/-- The lines of an outline: one a node, children further in. -/
def describeAt (indent : Nat) : Node → List String
  | mk info label _ children => describeInfo indent info label :: describeAll (indent + 1) children

def describeAll (indent : Nat) : List Node → List String
  | [] => []
  | c :: cs => describeAt indent c ++ describeAll indent cs

end

def describe (n : Node) : String := String.join (describeAt 0 n)

end Node

end ModuleLens
