import ModuleLens.Location.Uri
import ModuleLens.Text.Position

/-! Document snapshots.  A document is never changed in place: a batch of edits gives the next
snapshot or is refused as a whole.  Each edit of a batch addresses the text that the edits before
it left. -/

namespace ModuleLens

structure Document where
  uri : Uri
  version : Option Int
  text : Text
deriving DecidableEq

/-- One edit: a range and what replaces it; without a range the whole text is replaced. -/
structure Change where
  range : Option Range
  text : Text
deriving DecidableEq, Repr

inductive EditError where
  | invalidRange (range : Option Range)
  | staleVersion (current next : Int)
deriving DecidableEq, Repr

def Position.describe (p : Position) : String :=
  "LspPosition \x7b line: " ++ toString p.line ++ ", character: " ++ toString p.character ++ " \x7d"

def Range.describe (r : Range) : String :=
  "LspRange \x7b start: " ++ r.start.describe ++ ", end: " ++ r.stop.describe ++ " \x7d"

def EditError.message : EditError → String
  | invalidRange none => "invalid change range None"
  | invalidRange (some r) => "invalid change range Some(" ++ r.describe ++ ")"
  | staleVersion current next =>
    "document version " ++ toString next ++ " is older than current version " ++ toString current

namespace Document

def splice (t : Text) (r : Range) (new : Text) : Except EditError Text :=
  match t.charOffset r.start, t.charOffset r.stop with
  | .ok start, .ok stop =>
    if start ≤ stop then .ok (t.take start ++ (new ++ t.drop stop))
    else .error (.invalidRange (some r))
  | _, _ => .error (.invalidRange (some r))

/-- Applies one edit; only an edit that is alone in its batch may replace the whole text. -/
def applyChange (alone : Bool) (t : Text) (change : Change) : Except EditError Text :=
  match change.range with
  | some r => splice t r change.text
  | none => if alone then .ok change.text else .error (.invalidRange none)

/-- Whether a version lies before the current one; an unknown version never does. -/
def isStale (d : Document) (next : Option Int) : Option (Int × Int) :=
  match d.version, next with
  | some current, some next => if next < current then some (current, next) else none
  | _, _ => none

def apply (d : Document) (changes : List Change) (next : Option Int) : Except EditError Document :=
  match d.isStale next with
  | some (current, next) => .error (.staleVersion current next)
  | none => do
    let text ← changes.foldlM (applyChange (changes.length == 1)) d.text
    return { d with version := next, text }

end Document

end ModuleLens
