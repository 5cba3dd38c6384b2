import ModuleLens.SyntaxTree

/-! Trees laid out as text.  A sketch describes a tree by its leaves and separators; laying it out
gives a text and the tree whose spans fit that text. -/

namespace ModuleLens

inductive Sketch where
  | group (kind : String) (wrong : Bool) (separator : Text) (children : List Sketch)
  | leaf (kind : String) (named : Bool) (text : Text)
  | absent (kind : String)

namespace Sketch

def isAbsent : Sketch → Bool
  | absent _ => true
  | _ => false

/-- Whether a kind is that of a named rule: rules start with a letter. -/
def isRuleKind (kind : String) : Bool := kind.toList.head?.any Char.isAlpha

mutual

/-- Lays a sketch out from byte `offset`: its text and its tree. -/
def layoutAt (offset : Nat) : Sketch → Text × SyntaxTree
  | group kind wrong separator children =>
    let (text, trees) := layoutAll offset separator false children
    (text, .node { kind, named := true, wrong, span := ⟨offset, offset + text.byteLength⟩ } trees)
  | leaf kind named text =>
    (text, .node { kind, named, span := ⟨offset, offset + text.byteLength⟩ } [])
  | absent kind =>
    ([], .node { kind, named := isRuleKind kind, absent := true, span := ⟨offset, offset⟩ } [])

/-- Lays sketches out from byte `offset`; `begun` says whether one with text came before, so that a
separator is due. -/
def layoutAll (offset : Nat) (separator : Text) (begun : Bool) :
    List Sketch → Text × List SyntaxTree
  | [] => ([], [])
  | p :: ps =>
    let gap := if begun && !p.isAbsent then separator else []
    let start := offset + gap.byteLength
    let (text, tree) := layoutAt start p
    let (rest, trees) := layoutAll (start + text.byteLength) separator (begun || !p.isAbsent) ps
    (gap ++ text ++ rest, tree :: trees)

end

def layout (p : Sketch) : Text × SyntaxTree := layoutAt 0 p

def spaced (kind : String) (children : List Sketch) : Sketch := group kind false [' '] children

def stacked (kind : String) (children : List Sketch) : Sketch := group kind false ['\n'] children

def ofMembers (members : List Sketch) : Sketch := stacked "module" members

def named (kind : String) (text : Text) : Sketch := leaf kind true text

def token (text : Text) : Sketch := leaf (String.ofList text) false text

def wrong (children : List Sketch) : Sketch := group "ERROR" true [' '] children

end Sketch

end ModuleLens
