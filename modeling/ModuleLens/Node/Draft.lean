import ModuleLens.Node
import ModuleLens.Outline
import ModuleLens.Sorting

/-! Drafting a module tree from a concrete tree.  Every concrete node becomes a node of its own,
or a mark on its parent: tokens are only noted as present, comments and absent nodes leave no
trace, and input that made no sense is kept as an unidentified node.  A draft has no identities yet
and its imports are not followed; those are added by numbering and linking. -/

namespace ModuleLens

inductive Form where
  | module
  | moduleHeader
  | moduleClause
  | importClause
  | classDeclaration
  | classBody
  | objectBody
  | classProperty
  | objectProperty
  | objectEntry
  | functionDeclaration
  | functionHeader
  | parameterList
  | parameter
  | typeClause
  | typeReference
  | identifier
  | stringLiteral
  | numberLiteral
  | booleanLiteral (value : Bool)
  | nullLiteral
  | variableReference
  | methodCall
  | binaryExpression
  | other
deriving DecidableEq, Repr

def Form.ofKind (kind : String) : Form :=
  match kind with
  | "module" => .module
  | "moduleHeader" => .moduleHeader
  | "moduleClause" => .moduleClause
  | "importClause" | "importExpr" | "extendsOrAmendsClause" => .importClause
  | "clazz" => .classDeclaration
  | "classBody" => .classBody
  | "objectBody" => .objectBody
  | "classProperty" => .classProperty
  | "objectProperty" => .objectProperty
  | "objectEntry" => .objectEntry
  | "classMethod" | "objectMethod" => .functionDeclaration
  | "methodHeader" => .functionHeader
  | "parameterList" => .parameterList
  | "typedIdentifier" => .parameter
  | "typeAnnotation" => .typeClause
  | "type" => .typeReference
  | "identifier" | "qualifiedIdentifier" => .identifier
  | "stringConstant" | "slStringLiteral" | "mlStringLiteral" => .stringLiteral
  | "intLiteral" | "floatLiteral" => .numberLiteral
  | "trueLiteral" => .booleanLiteral true
  | "falseLiteral" => .booleanLiteral false
  | "nullLiteral" => .nullLiteral
  | "variableExpr" => .variableReference
  | "methodCallExpr" => .methodCall
  | "binaryExpr" | "binaryExprRightAssoc" | "isExpr" | "asExpr" => .binaryExpression
  | _ => .other

def modifierWords : List String :=
  ["abstract", "open", "external", "local", "hidden", "fixed", "const"]

def operatorWords : List String := "is" :: "as" :: Outline.operators

def isCommentKind (kind : String) : Bool :=
  kind == "lineComment" || kind == "blockComment" || kind == "docComment"

def isExpressionKind (kind : String) : Bool :=
  !(kind == "identifier" || kind == "annotation" || kind == "modifier" || kind == "typeAnnotation")

/-- A concrete node, its draft, and the parts it has itself. -/
structure Part where
  tree : SyntaxTree
  node : Node
  parts : List Part

namespace Part

def kind (p : Part) : String := p.tree.kind

/-- Whether a part leaves a trace: comments and absent nodes leave none. -/
def isVisible (p : Part) : Bool := !p.tree.head.absent && !isCommentKind p.kind

def isWrong (p : Part) : Bool := p.tree.head.wrong

def isNamed (p : Part) : Bool := !p.isWrong && p.tree.head.named

def isToken (p : Part) : Bool := !p.isWrong && !p.tree.head.named

end Part

structure Parts where
  visible : List Part

namespace Parts

def ofList (ps : List Part) : Parts := ⟨ps.filter Part.isVisible⟩

def named (ps : Parts) : List Part := ps.visible.filter Part.isNamed

def tokens (ps : Parts) : List String := (ps.visible.filter Part.isToken).map Part.kind

def hasToken (ps : Parts) (token : String) : Bool := ps.tokens.contains token

def recovered (ps : Parts) : List Node :=
  (ps.visible.filter Part.isWrong).map fun p => p.node.withRole .recovered

end Parts

def pick (role : Role) (kinds : List String) (ps : List Part) : List Node :=
  ((ps.find? fun p => kinds.contains p.kind).map fun p => p.node.withRole role).toList

def leave (kinds : List String) (ps : List Part) : List Part :=
  ps.eraseP fun p => kinds.contains p.kind

def pickAll (role : Role) (kind : String) (ps : List Part) : List Node :=
  (ps.filter fun p => p.kind == kind).map fun p => p.node.withRole role

def place (role : Role) (ps : List Part) : List Node := ps.map fun p => p.node.withRole role

def expressions (ps : List Part) : List Part := ps.filter fun p => isExpressionKind p.kind

/-- What a draft is made for: the document, its scale, and how many imports away it is. -/
structure DraftContext where
  document : Document
  depth : Nat
  scale : Scale document.text

namespace DraftContext

def textOf (ctx : DraftContext) (span : Span) : Text := ctx.scale.slice span

def inOrder (a b : Node) : Bool :=
  a.range.bytes.start < b.range.bytes.start ||
    (a.range.bytes.start == b.range.bytes.start && a.range.bytes.stop ≤ b.range.bytes.stop)

/-- A node over a span; its children are put into source order. -/
def make (ctx : DraftContext) (span : Span) (label : Label) (children : List Node) : Node :=
  .mk
    { id := default, role := .root, range := ctx.scale.extent span, depth := ctx.depth,
      document := ctx.document }
    label none (sortBy inOrder children)

def draftWrong (ctx : DraftContext) (span : Span) : Node :=
  ctx.make span (.unidentified (ctx.textOf span)) []

/-- The modifiers among parts: tokens first, and then the texts of modifier rules. -/
def modifiers (ctx : DraftContext) (ps : Parts) : List Text :=
  (ps.tokens.filter modifierWords.contains).map String.toList ++
    (ps.named.filter fun p => p.kind == "modifier").map fun p => ctx.textOf p.tree.span

/-- The arguments of a call: what stands in an argument list, or the part itself. -/
def argumentsOf (p : Part) : List Node :=
  if p.kind == "argumentList" then place .argument (Parts.ofList p.parts).named
  else [p.node.withRole .argument]

def superclass (ps : List Part) : List Node :=
  match ps.find? fun p => p.kind == "classExtendsClause" with
  | none => []
  | some p => pick .superclass ["type"] (Parts.ofList p.parts).named

/-- The children of a binary expression: the first two rules are its sides, the first operator
token is its operator, and every other rule is left over. -/
def operands (ctx : DraftContext) (ps : Parts) : List Node :=
  let left := (ps.named.take 1).map fun p => p.node.withRole .left
  let right := ((ps.named.drop 1).take 1).map fun p => p.node.withRole .right
  let isOperator (p : Part) : Bool := p.isToken && operatorWords.contains p.kind
  let operator := ((ps.visible.find? isOperator).map fun p =>
    (ctx.make p.tree.span (.binaryOperator p.kind) []).withRole .operator).toList
  let rest := (leftOver 2 ps.visible).map fun p => p.node.withRole .recovered
  left ++ operator ++ right ++ rest
where
  leftOver : Nat → List Part → List Part
    | _, [] => []
    | n, p :: ps =>
      if p.isWrong then p :: leftOver n ps
      else if p.isNamed then
        match n with
        | 0 => p :: leftOver 0 ps
        | n + 1 => leftOver n ps
      else leftOver n ps

def labelOf (ctx : DraftContext) (tree : SyntaxTree) (ps : Parts) : Form → Label
  | .module => .module
  | .moduleHeader => .moduleHeader
  | .moduleClause => .moduleClause
  | .importClause =>
    let kind := SyntaxTree.importKind? tree.kind tree.children
    .importClause
      { kind := kind.getD .amending
        path := SyntaxTree.importPath? ctx.scale tree.children
        conflict := kind.isNone }
  | .classDeclaration => .classDeclaration (ctx.modifiers ps) (ps.hasToken "class")
  | .classBody => .classBody (ps.hasToken "\x7b") (ps.hasToken "\x7d")
  | .objectBody => .objectBody (ps.hasToken "\x7b") (ps.hasToken "\x7d")
  | .classProperty => .classProperty (ctx.modifiers ps) (ps.hasToken "=")
  | .objectProperty => .objectProperty (ctx.modifiers ps) (ps.hasToken "=")
  | .objectEntry => .objectEntry (ps.hasToken "[") (ps.hasToken "]") (ps.hasToken "=")
  | .functionDeclaration => .functionDeclaration
  | .functionHeader => .functionHeader (ctx.modifiers ps) (ps.hasToken "function")
  | .parameterList => .parameterList (ps.hasToken "(") (ps.hasToken ")")
  | .parameter => .parameter
  | .typeClause => .typeClause (ps.hasToken ":")
  | .typeReference => .typeReference
  | .identifier => .identifier (ctx.textOf tree.span)
  | .stringLiteral => .stringLiteral (Text.literalBody (ctx.textOf tree.span))
  | .numberLiteral => .numberLiteral (ctx.textOf tree.span)
  | .booleanLiteral value => .booleanLiteral value
  | .nullLiteral => .nullLiteral
  | .variableReference => .variableReference
  | .methodCall => .methodCall
  | .binaryExpression => .binaryExpression
  | .other => .other tree.kind

/-- The children of a property: its name, type, value and bodies. -/
def propertyChildren (ps : List Part) : List Node :=
  pick .name ["identifier"] ps ++ pick .type ["typeAnnotation"] ps ++
    place .value ((expressions (ps.filter fun p => p.kind != "objectBody")).take 1) ++
    pickAll .objectBody "objectBody" ps

/-- The children of an entry: its key, value and bodies. -/
def entryChildren (ps : List Part) : List Node :=
  let found := expressions (ps.filter fun p => p.kind != "objectBody")
  place .key (found.take 1) ++ place .value ((found.drop 1).take 1) ++
    pickAll .objectBody "objectBody" ps

def nameKinds : List String := ["qualifiedIdentifier", "identifier"]

def childrenOf (ctx : DraftContext) (ps : Parts) : Form → List Node
  | .module =>
    pick .header ["moduleHeader"] ps.named ++ place .member (leave ["moduleHeader"] ps.named) ++
      ps.recovered
  | .moduleHeader => place .clause ps.named ++ ps.recovered
  | .moduleClause => pick .name nameKinds ps.named ++ ps.recovered
  | .importClause =>
    pick .path ["stringConstant", "slStringLiteral", "mlStringLiteral"] ps.named ++ ps.recovered
  | .classDeclaration =>
    pick .name ["identifier"] ps.named ++ superclass ps.named ++
      pick .body ["classBody"] ps.named ++ ps.recovered
  | .classBody | .objectBody => place .member ps.named ++ ps.recovered
  | .classProperty | .objectProperty => propertyChildren ps.named ++ ps.recovered
  | .objectEntry => entryChildren ps.named ++ ps.recovered
  | .functionDeclaration =>
    pick .header ["methodHeader"] ps.named ++
      place .body ((expressions (leave ["methodHeader"] ps.named)).take 1) ++ ps.recovered
  | .functionHeader =>
    pick .name ["identifier"] ps.named ++ pick .parameters ["parameterList"] ps.named ++
      pick .result ["typeAnnotation"] ps.named ++ ps.recovered
  | .parameterList => place .parameter ps.named ++ ps.recovered
  | .parameter =>
    pick .name ["identifier"] ps.named ++ pick .type ["typeAnnotation"] ps.named ++ ps.recovered
  | .typeClause => pick .type ["type"] ps.named ++ ps.recovered
  | .typeReference =>
    pick .name nameKinds ps.named ++ place .argument (leave nameKinds ps.named) ++ ps.recovered
  | .variableReference => pick .name ["identifier"] ps.named ++ ps.recovered
  | .methodCall =>
    pick .name ["identifier"] ps.named ++ (leave ["identifier"] ps.named).flatMap argumentsOf ++
      ps.recovered
  | .binaryExpression => operands ctx ps
  | .other => place .member ps.named ++ ps.recovered
  | .identifier | .stringLiteral | .numberLiteral | .booleanLiteral _ | .nullLiteral => []

def construct (ctx : DraftContext) (form : Form) (tree : SyntaxTree) (ps : Parts) : Node :=
  ctx.make tree.span (ctx.labelOf tree ps form) (ctx.childrenOf ps form)

mutual

def draftPart (ctx : DraftContext) : SyntaxTree → Part
  | .node head children =>
    let parts := ctx.draftAll children
    let node :=
      if head.wrong then ctx.draftWrong head.span
      else ctx.construct (.ofKind head.kind) (.node head children) (.ofList parts)
    ⟨.node head children, node, parts⟩

def draftAll (ctx : DraftContext) : List SyntaxTree → List Part
  | [] => []
  | t :: ts => ctx.draftPart t :: ctx.draftAll ts

end

/-- The draft of a whole module.  A root that is no module still gives one, and one that made no
sense is also kept as a child. -/
def draftModule (ctx : DraftContext) (root : SyntaxTree) : Node :=
  let ps := Parts.ofList (ctx.draftAll root.children)
  if root.kind == "module" then ctx.construct .module root ps
  else
    let rejected :=
      if root.head.wrong then [(ctx.draftWrong root.span).withRole .rejected] else []
    ctx.make root.span .module (place .member ps.named ++ ps.recovered ++ rejected)

end DraftContext

end ModuleLens
