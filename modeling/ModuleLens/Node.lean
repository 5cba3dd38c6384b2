import ModuleLens.Document
import ModuleLens.Import.Edge

/-! Module trees.  A node has a label, which says what construct it is, and children in source
order, each with the role it plays for its parent.  A node also knows its range, its document, how
many imports away from the entry document it is, and who it is.  An import node holds the outcome
of following it; the module behind it is no child, since it belongs to another document. -/

namespace ModuleLens

/-- Who a node is: the build that made it and its place in that build. -/
structure NodeId where
  build : Nat
  index : Nat
deriving DecidableEq, Repr, Inhabited

def NodeId.order : NodeId → NodeId → Ordering :=
  compareLex (compareOn NodeId.build) (compareOn NodeId.index)

instance : Std.TransCmp NodeId.order := inferInstanceAs (Std.TransCmp (compareLex _ _))

inductive Role where
  | root
  | header
  | clause
  | name
  | path
  | superclass
  | parameters
  | type
  | result
  | objectBody
  | key
  | value
  | body
  | argument
  | parameter
  | left
  | operator
  | right
  | member
  | recovered
  | rejected
deriving DecidableEq, Repr, Inhabited

/-- An import clause: its kind, its path, and whether its keywords contradict each other. -/
structure ImportClause where
  kind : ImportKind
  path : Option Text
  conflict : Bool
deriving DecidableEq, Repr

def ImportClause.edge? (c : ImportClause) : Option ImportEdge :=
  if c.conflict then none else c.path.map fun path => ⟨c.kind, path⟩

inductive Label where
  | module
  | moduleHeader
  | moduleClause
  | importClause (clause : ImportClause)
  | classDeclaration (modifiers : List Text) (keyword : Bool)
  | classBody (opened closed : Bool)
  | objectBody (opened closed : Bool)
  | classProperty (modifiers : List Text) (equals : Bool)
  | objectProperty (modifiers : List Text) (equals : Bool)
  | objectEntry (opened closed equals : Bool)
  | functionDeclaration
  | functionHeader (modifiers : List Text) (keyword : Bool)
  | parameterList (opened closed : Bool)
  | parameter
  | typeClause (colon : Bool)
  | typeReference
  | identifier (name : Text)
  | stringLiteral (value : Text)
  | numberLiteral (value : Text)
  | booleanLiteral (value : Bool)
  | nullLiteral
  | variableReference
  | methodCall
  | binaryExpression
  | binaryOperator (operator : String)
  | unidentified (text : Text)
  | other (kind : String)
deriving DecidableEq, Repr

def Label.name : Label → String
  | module => "Module"
  | moduleHeader => "ModuleHeader"
  | moduleClause => "ModuleClause"
  | importClause _ => "Import"
  | classDeclaration .. => "ClassDeclaration"
  | classBody .. => "ClassBody"
  | objectBody .. => "ObjectBody"
  | classProperty .. => "ClassProperty"
  | objectProperty .. => "ObjectProperty"
  | objectEntry .. => "ObjectEntry"
  | functionDeclaration => "FunctionDeclaration"
  | functionHeader .. => "FunctionHeader"
  | parameterList .. => "ParameterList"
  | parameter => "Parameter"
  | typeClause _ => "TypeAnnotation"
  | typeReference => "Type"
  | identifier _ => "Identifier"
  | stringLiteral _ => "StringLiteral"
  | numberLiteral _ => "NumberLiteral"
  | booleanLiteral _ => "BooleanLiteral"
  | nullLiteral => "NullLiteral"
  | variableReference => "Variable"
  | methodCall => "MethodCall"
  | binaryExpression => "BinaryExpression"
  | binaryOperator _ => "BinaryOperator"
  | unidentified _ => "Unidentified"
  | other kind => kind

inductive Outcome (μ : Type) where
  | resolved (module : μ)
  | notFound
  | tooDeep (limit : Nat)
  | timedOut
deriving DecidableEq, Repr

structure NodeInfo where
  id : NodeId
  role : Role
  range : Extent
  depth : Nat
  document : Document

inductive Node where
  | mk (info : NodeInfo) (label : Label) (outcome : Option (Outcome Node)) (children : List Node)

namespace Node

def info : Node → NodeInfo
  | mk i _ _ _ => i

def label : Node → Label
  | mk _ l _ _ => l

/-- The outcome of following an import node; none if it was not followed. -/
def outcome : Node → Option (Outcome Node)
  | mk _ _ o _ => o

def children : Node → List Node
  | mk _ _ _ cs => cs

def id (n : Node) : NodeId := n.info.id

def role (n : Node) : Role := n.info.role

def range (n : Node) : Extent := n.info.range

/-- How many imports lie between the entry document and the node. -/
def depth (n : Node) : Nat := n.info.depth

def document (n : Node) : Document := n.info.document

def uri (n : Node) : Uri := n.document.uri

def text (n : Node) : Text := n.range.text n.document.text

def withRole (role : Role) : Node → Node
  | mk i l o cs => mk { i with role } l o cs

def slot (n : Node) (role : Role) : List Node := n.children.filter fun c => c.role == role

def slot? (n : Node) (role : Role) : Option Node := n.children.find? fun c => c.role == role

def has (n : Node) (role : Role) : Bool := n.children.any fun c => c.role == role

def recovered (n : Node) : List Node := n.slot .recovered ++ n.slot .rejected

def clause? (n : Node) : Option ImportClause :=
  match n.label with
  | .importClause c => some c
  | _ => none

def target? (n : Node) : Option Node :=
  match n.outcome with
  | some (.resolved m) => some m
  | _ => none

def identifier? (n : Node) : Option Text :=
  match n.label with
  | .identifier name => some name
  | _ => none

def declares? (n : Node) : Option Text :=
  match n.label with
  | .classDeclaration .. | .classProperty .. | .objectProperty .. | .functionHeader ..
  | .parameter =>
    (n.slot? .name).bind identifier?
  | _ => none

end Node

end ModuleLens
