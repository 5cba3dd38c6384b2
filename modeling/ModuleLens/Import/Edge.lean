import ModuleLens.SyntaxTree

/-! Imports in a concrete tree.  An import clause names a kind and a path, the text of its string
literal without delimiters.  Scanning a tree lists the imports that can be followed, in source
order; clauses that lack a path or contradict themselves are looked through like any other node. -/

namespace ModuleLens

inductive ImportKind where
  | plain
  | amending
  | extending
deriving DecidableEq, Repr

def ImportKind.name : ImportKind → String
  | plain => "import"
  | amending => "amends"
  | extending => "extends"

structure ImportEdge where
  kind : ImportKind
  path : Text
deriving DecidableEq, Repr

def ImportKind.rank : ImportKind → Nat
  | plain => 0
  | amending => 1
  | extending => 2

def ImportEdge.order : ImportEdge → ImportEdge → Ordering :=
  compareLex (compareOn fun e => e.kind.rank) (compareOn ImportEdge.path)

instance : Std.TransCmp ImportEdge.order := inferInstanceAs (Std.TransCmp (compareLex _ _))

namespace Text

def trimSigns (t : Text) : Text :=
  ((t.dropWhile (· == '#')).reverse.dropWhile (· == '#')).reverse

/-- A string literal without its delimiters: number signs, and three double quotes or one. -/
def literalBody (t : Text) : Text :=
  let inner := trimSigns t
  match dropPrefix? ['"', '"', '"'] inner with
  | some rest => (dropSuffix? ['"', '"', '"'] rest).getD rest
  | none =>
    match dropPrefix? ['"'] inner with
    | some rest => (dropSuffix? ['"'] rest).getD rest
    | none => inner

end Text

namespace SyntaxTree

def isLiteralKind (kind : String) : Bool :=
  kind == "stringConstant" || kind == "slStringLiteral" || kind == "mlStringLiteral"

def isImportKind (kind : String) : Bool :=
  kind == "importClause" || kind == "importExpr" || kind == "extendsOrAmendsClause"

def hasToken (trees : List SyntaxTree) (token : String) : Bool :=
  trees.any fun t => !t.head.named && !t.head.absent && t.kind == token

/-- The kind that the tokens of an import clause name; an amends or extends clause with both
keywords or with neither names none. -/
def importKind? (kind : String) (children : List SyntaxTree) : Option ImportKind :=
  if kind == "extendsOrAmendsClause" then
    match hasToken children "amends", hasToken children "extends" with
    | true, false => some .amending
    | false, true => some .extending
    | _, _ => none
  else some .plain

def importPath? {text : Text} (scale : Scale text) (children : List SyntaxTree) : Option Text :=
  (children.find? fun t => t.head.named && !t.head.absent && isLiteralKind t.kind).map fun t =>
    Text.literalBody (scale.slice t.span)

def importEdge? {text : Text} (scale : Scale text) (head : SyntaxHead)
    (children : List SyntaxTree) : Option ImportEdge :=
  if isImportKind head.kind then
    match importKind? head.kind children, importPath? scale children with
    | some kind, some path => some ⟨kind, path⟩
    | _, _ => none
  else none

mutual

/-- The imports of a tree over the text of a scale, in source order; what is wrong or absent holds
none. -/
def scanBy {text : Text} (scale : Scale text) : SyntaxTree → List ImportEdge
  | node head children =>
    if head.wrong || head.absent then []
    else
      match importEdge? scale head children with
      | some edge => [edge]
      | none => scanAllBy scale children

def scanAllBy {text : Text} (scale : Scale text) : List SyntaxTree → List ImportEdge
  | [] => []
  | t :: ts => scanBy scale t ++ scanAllBy scale ts

end

/-- The imports of a tree over a text, in source order. -/
def scan (text : Text) (t : SyntaxTree) : List ImportEdge := t.scanBy (.of text)

end SyntaxTree

end ModuleLens
