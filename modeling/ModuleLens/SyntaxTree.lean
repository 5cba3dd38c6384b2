import ModuleLens.Text.Quoted
import ModuleLens.Text.Scale

/-! Concrete syntax trees.  A tree is what a parser hands over: every node has a grammar kind and a
byte span, is a named rule or an anonymous token, and may wrap input that made no sense or stand
for something absent. -/

namespace ModuleLens

structure SyntaxHead where
  kind : String
  named : Bool
  wrong : Bool := false
  absent : Bool := false
  span : Span
deriving DecidableEq, Repr

inductive SyntaxTree where
  | node (head : SyntaxHead) (children : List SyntaxTree)

namespace SyntaxTree

def head : SyntaxTree → SyntaxHead
  | node h _ => h

def children : SyntaxTree → List SyntaxTree
  | node _ cs => cs

def kind (t : SyntaxTree) : String := t.head.kind

def span (t : SyntaxTree) : Span := t.head.span

def rule (kind : String) (span : Span) (children : List SyntaxTree) : SyntaxTree :=
  node { kind, named := true, span } children

def leaf (kind : String) (span : Span) : SyntaxTree := rule kind span []

def token (kind : String) (span : Span) : SyntaxTree := node { kind, named := false, span } []

def label (h : SyntaxHead) : String :=
  if h.absent then "MISSING " ++ h.kind
  else if h.named then h.kind
  else String.ofList (Text.quote h.kind.toList)

/-- One line of an outline; the text of a named node without children is shown. -/
def describeHead {text : Text} (scale : Scale text) (indent : Nat) (h : SyntaxHead)
    (isLeaf : Bool) : String :=
  let shown :=
    if h.named && isLeaf then " " ++ String.ofList (Text.quote (scale.slice h.span)) else ""
  "".pushn ' ' (2 * indent) ++ label h ++ " [" ++ toString h.span.start ++ ".." ++
    toString h.span.stop ++ "]" ++ shown ++ "\n"

mutual

/-- The lines of an outline: one a node, children further in. -/
def describeAt {text : Text} (scale : Scale text) (indent : Nat) : SyntaxTree → List String
  | node h cs => describeHead scale indent h cs.isEmpty :: describeAll scale (indent + 1) cs

def describeAll {text : Text} (scale : Scale text) (indent : Nat) : List SyntaxTree → List String
  | [] => []
  | t :: ts => describeAt scale indent t ++ describeAll scale indent ts

end

def describe (text : Text) (t : SyntaxTree) : String := String.join (describeAt (.of text) 0 t)

end SyntaxTree

end ModuleLens
