import ModuleLens.Delta
import ModuleLens.Document
import ModuleLens.SyntaxTree
import ModuleLens.Table

/-! The syntax trees of tracked documents.  A parsing engine makes trees from texts, from scratch
or from an older tree and the edits since.  The store keeps for each location the tree of the
snapshot that was kept last; an update goes through the edits only if the store holds the tree
of the very snapshot it starts from and the changes lead to the new text. -/

namespace ModuleLens

/-- A parsing engine: the version of its grammar, and its two ways to make a tree. -/
structure Engine where
  version : Nat
  parse : Text → Option SyntaxTree
  /-- Makes the tree of a text from an older tree and the edits that lead to the text. -/
  reparse : SyntaxTree → List Delta → Text → Option SyntaxTree

inductive EngineError where
  | incompatible (version : Nat)
  | noTree (uri : Uri)
deriving DecidableEq

namespace Engine

def oldestVersion : Nat := 13

def newestVersion : Nat := 15

def check (e : Engine) : Except EngineError Unit :=
  if oldestVersion ≤ e.version ∧ e.version ≤ newestVersion then .ok ()
  else .error (.incompatible e.version)

end Engine

def EngineError.message : EngineError → String
  | incompatible version =>
    "tree-sitter language error: Incompatible language version " ++ toString version ++
      ". Expected minimum " ++ toString Engine.oldestVersion ++ ", maximum " ++
      toString Engine.newestVersion
  | noTree uri => "tree-sitter produced no tree for " ++ String.ofList uri.text

inductive UpdateMode where
  | full
  | incremental
  | fallback
deriving DecidableEq, Repr

structure Update where
  tree : SyntaxTree
  mode : UpdateMode

structure StoredTree where
  version : Option Int
  text : Text
  tree : SyntaxTree

abbrev TreeStore := Table Uri StoredTree

namespace TreeStore

def keep (s : TreeStore) (d : Document) (tree : SyntaxTree) : TreeStore :=
  s.insert d.uri ⟨d.version, d.text, tree⟩

def supersede (s : TreeStore) (old new : Document) (tree : SyntaxTree) : TreeStore :=
  keep (if old.uri = new.uri then s else s.erase old.uri) new tree

def parseAlone (e : Engine) (d : Document) : Except EngineError SyntaxTree :=
  match e.parse d.text with
  | some tree => .ok tree
  | none => .error (.noTree d.uri)

def track (e : Engine) (s : TreeStore) (d : Document) : Except EngineError Update × TreeStore :=
  match parseAlone e d with
  | .ok tree => (.ok ⟨tree, .full⟩, keep s d tree)
  | .error err => (.error err, s)

/-- The edits of changes applied one at a time to a text, and the text at the end. -/
def editsOf : Text → List Change → Option (List Delta × Text)
  | t, [] => some ([], t)
  | t, change :: changes =>
    match Document.applyChange true t change with
    | .error _ => none
    | .ok next =>
      (editsOf next changes).map fun (deltas, last) =>
        ((Delta.between t next).toList ++ deltas, last)

def replay (old : Document) (changes : List Change) (new : Document) : Option (List Delta) :=
  match editsOf old.text changes with
  | some (deltas, last) => if last = new.text then some deltas else none
  | none => none

def treeOf? (s : TreeStore) (d : Document) : Option SyntaxTree :=
  match s.get? d.uri with
  | some stored =>
    if stored.version = d.version ∧ stored.text = d.text then some stored.tree else none
  | none => none

def updated? (e : Engine) (s : TreeStore) (old new : Document) (changes : List Change) :
    Option SyntaxTree := do
  let tree ← treeOf? s old
  let deltas ← replay old changes new
  e.reparse tree deltas new.text

/-- Updates the tree of a snapshot to that of the next one, from scratch if need be. -/
def update (e : Engine) (s : TreeStore) (old new : Document) (changes : List Change) :
    Except EngineError Update × TreeStore :=
  match updated? e s old new changes with
  | some tree => (.ok ⟨tree, .incremental⟩, supersede s old new tree)
  | none =>
    match parseAlone e new with
    | .ok tree => (.ok ⟨tree, .fallback⟩, supersede s old new tree)
    | .error err => (.error err, s)

/-- Forgets the tree of a location; also says whether there was one. -/
def forget (s : TreeStore) (uri : Uri) : Bool × TreeStore := (s.contains uri, s.erase uri)

end TreeStore

end ModuleLens
