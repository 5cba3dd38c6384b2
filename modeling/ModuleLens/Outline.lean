import ModuleLens.SyntaxTree
import ModuleLens.Text.Numeral

/-! A line grammar of modules.  Every line that is not blank is one member: an import, an amends or
extends clause, or a property `name: Type = value` of which all but the name may be absent.  A
value is one word, or two words around an operator; two words alone are an operation without its
operator.  A line of any other form is handed over as one piece. -/

namespace ModuleLens

namespace Outline

/-- A maximal run of scalars that are not white space, and the byte at which it starts. -/
structure Word where
  start : Nat
  text : Text
deriving DecidableEq, Repr

def Word.span (w : Word) : Span := ⟨w.start, w.start + w.text.byteLength⟩

def words (offset : Nat) : Text → List Word
  | [] => []
  | c :: t =>
    let rest := words (offset + c.utf8Size) t
    if Text.isSpace c then rest
    else
      match t.head?, rest with
      | some d, w :: ws =>
        if Text.isSpace d then ⟨offset, [c]⟩ :: rest else ⟨offset, c :: w.text⟩ :: ws
      | _, _ => ⟨offset, [c]⟩ :: rest

def cut (c : Char) (t : Text) : Text × Option Text :=
  match t.dropWhile (· != c) with
  | [] => (t, none)
  | _ :: rest => (t.takeWhile (· != c), some rest)

/-- Whether a word is a name: a letter, `_` or `$`, and then letters, numbers, `_` and `$`. -/
def isName : Text → Bool
  | [] => false
  | c :: t =>
    (Text.isAlphabetic c || c == '_' || c == '$') &&
      t.all fun d => Text.isAlphanumeric d || d == '_' || d == '$'

def isQuoted (t : Text) : Bool := 2 ≤ t.length && t.head? == some '"' && t.getLast? == some '"'

def operators : List String :=
  ["+", "-", "*", "/", "~/", "%", "**", "==", "!=", "<", "<=", ">", ">=", "&&", "||", "??", "|>"]

def atom (w : Word) : Option SyntaxTree :=
  if w.text = "true".toList then some (.leaf "trueLiteral" w.span)
  else if w.text = "false".toList then some (.leaf "falseLiteral" w.span)
  else if w.text = "null".toList then some (.leaf "nullLiteral" w.span)
  else if isQuoted w.text then some (.leaf "slStringLiteral" w.span)
  else if isName w.text then some (.rule "variableExpr" w.span [.leaf "identifier" w.span])
  else if Text.isInteger w.text then some (.leaf "intLiteral" w.span)
  else if Text.isDecimal w.text then some (.leaf "floatLiteral" w.span)
  else none

def expression : List Word → Option SyntaxTree
  | [w] => atom w
  | [l, r] => do
    let left ← atom l
    let right ← atom r
    return .rule "binaryExpr" ⟨l.span.start, r.span.stop⟩ [left, right]
  | [l, o, r] =>
    let operator := String.ofList o.text
    if operators.contains operator then do
      let left ← atom l
      let right ← atom r
      return .rule "binaryExpr" ⟨l.span.start, r.span.stop⟩ [left, .token operator o.span, right]
    else none
  | _ => none

/-- A type annotation whose colon stands at byte `colon`, the text after the colon given. -/
def typeClause (colon : Nat) (t : Text) : Option SyntaxTree :=
  let mark := SyntaxTree.token ":" ⟨colon, colon + 1⟩
  match words (colon + 1) t with
  | [] => some (.rule "typeAnnotation" ⟨colon, colon + 1⟩ [mark])
  | [w] =>
    if isName w.text then
      let type := SyntaxTree.rule "type" w.span [.leaf "qualifiedIdentifier" w.span]
      some (.rule "typeAnnotation" ⟨colon, w.span.stop⟩ [mark, type])
    else none
  | _ => none

def assignment (equals : Nat) (t : Text) : Option (List SyntaxTree) :=
  let mark := SyntaxTree.token "=" ⟨equals, equals + 1⟩
  match words (equals + 1) t with
  | [] => some [mark]
  | ws => (expression ws).map fun value => [mark, value]

def property (offset : Nat) (line : Text) : Option SyntaxTree := do
  let (left, right) := cut '=' line
  let (name, type) := cut ':' left
  let nameLeaf ←
    match words offset name with
    | [w] => if isName w.text then some (SyntaxTree.leaf "identifier" w.span) else none
    | _ => none
  let annotations ←
    match type with
    | none => some []
    | some t => (typeClause (offset + name.byteLength) t).map ([·])
  let assigned ←
    match right with
    | none => some []
    | some t => assignment (offset + left.byteLength) t
  let parts := annotations ++ assigned
  let stop := ((parts.getLast?.getD nameLeaf).span).stop
  return .rule "classProperty" ⟨offset, stop⟩ (nameLeaf :: parts)

/-- The member on a trimmed line that starts at byte `offset`; `bad` makes a tree of a line of no
known form. -/
def member (bad : Span → SyntaxTree) (offset : Nat) (line : Text) : SyntaxTree :=
  let span : Span := ⟨offset, offset + line.byteLength⟩
  let orElse (t : Option SyntaxTree) : SyntaxTree := t.getD (bad span)
  match words offset line with
  | [keyword, path] =>
    let word := String.ofList keyword.text
    let parts := [SyntaxTree.token word keyword.span, SyntaxTree.leaf "stringConstant" path.span]
    if isQuoted path.text && word == "import" then .rule "importClause" span parts
    else if isQuoted path.text && (word == "amends" || word == "extends") then
      .rule "moduleHeader" span [.rule "extendsOrAmendsClause" span parts]
    else orElse (property offset line)
  | _ => orElse (property offset line)

def members (bad : Span → SyntaxTree) : Nat → List Text → List SyntaxTree
  | _, [] => []
  | offset, line :: lines =>
    let rest := members bad (offset + line.byteLength + 1) lines
    let body := Text.trimStart line
    if body.isEmpty then rest
    else member bad (offset + (line.byteLength - body.byteLength)) (Text.trim line) :: rest

def wrongLine (span : Span) : SyntaxTree :=
  .node { kind := "ERROR", named := true, wrong := true, span } []

/-- The tree of a text; a line of no known form is marked as wrong. -/
def parse (t : Text) : SyntaxTree :=
  .rule "module" ⟨0, t.byteLength⟩ (members wrongLine 0 t.lines)

/-- The tree of a text as a grammar without error recovery gives it: a line of no known form is a
rule of its own, and the root covers its members only. -/
def parseStrict (t : Text) : SyntaxTree :=
  let found := members (.leaf "badLine") 0 t.lines
  let start := (found.head?.map fun m => m.span.start).getD 0
  let stop := (found.getLast?.map fun m => m.span.stop).getD 0
  .rule "module" ⟨start, stop⟩ found

end Outline

end ModuleLens
