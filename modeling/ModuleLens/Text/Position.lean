import ModuleLens.Text

/-! Editor positions.  An editor addresses a text by line and by UTF-16 code unit within the line;
everything else addresses it by byte.  A byte offset is turned into a position by reading the
text before it; a position is turned into a byte offset by finding its line and counting code
units, rounding down inside a surrogate pair. -/

namespace ModuleLens

/-- A line and a count of UTF-16 code units within it, both from zero. -/
structure Position where
  line : Nat
  character : Nat
deriving DecidableEq, Repr, Inhabited

namespace Position

def before (p q : Position) : Bool :=
  p.line < q.line || (p.line == q.line && p.character ≤ q.character)

def advance (p : Position) (c : Char) : Position :=
  if c = '\n' then ⟨p.line + 1, 0⟩ else ⟨p.line, p.character + Text.unitWidth c⟩

def ofText (t : Text) : Position := t.foldl advance ⟨0, 0⟩

end Position

/-- Two positions; the first need not come first. -/
structure Range where
  start : Position
  stop : Position
deriving DecidableEq, Repr, Inhabited

/-- Whether a position lies in the range, its end included: a cursor right after a token still
points at the token. -/
def Range.contains (r : Range) (p : Position) : Bool := r.start.before p && p.before r.stop

structure Span where
  start : Nat
  stop : Nat
deriving DecidableEq, Repr, Inhabited

/-- Why a position or an offset does not address a text: what was asked for, and how much there
is. -/
inductive OutOfRange where
  | line (asked lineCount : Nat)
  | character (row asked lineLength : Nat)
  | offset (asked length : Nat)
deriving DecidableEq, Repr

def OutOfRange.message : OutOfRange → String
  | line asked lineCount =>
    s!"line {asked} is out of range (document has {lineCount} lines)"
  | character row asked lineLength =>
    s!"character {asked} is out of range on line {row} (line length {lineLength})"
  | offset asked length =>
    s!"byte offset {asked} is out of range (text length {length})"

namespace Text

def charOffset (t : Text) (p : Position) : Except OutOfRange Nat :=
  match lineFrom 0 t p.line with
  | none => .error (.line p.line (lineCount t))
  | some (start, rest) =>
    let line := firstLine rest
    if p.character ≤ unitLength line then
      .ok (start + (takeUnits line p.character).length)
    else
      .error (.character p.line p.character (unitLength line))

def offsetOf (t : Text) (p : Position) : Except OutOfRange Nat :=
  (charOffset t p).map fun n => byteLength (t.take n)

/-- The position of the scalar that holds byte `b`; the end of the text beyond it. -/
def positionAt (t : Text) (b : Nat) : Position := Position.ofText (takeBytes t b)

def positionOf (t : Text) (b : Nat) : Except OutOfRange Position :=
  if b ≤ byteLength t then .ok (positionAt t b) else .error (.offset b (byteLength t))

def spanOf (t : Text) (r : Range) : Except OutOfRange Span := do
  let start ← offsetOf t r.start
  let stop ← offsetOf t r.stop
  return ⟨start, stop⟩

def rangeOf (t : Text) (s : Span) : Except OutOfRange Range := do
  let start ← positionOf t s.start
  let stop ← positionOf t s.stop
  return ⟨start, stop⟩

end Text

structure Extent where
  positions : Range
  bytes : Span
deriving DecidableEq, Repr, Inhabited

namespace Extent

/-- The stretch between two byte offsets, cut to the text and moved down to scalar starts. -/
def ofSpan (t : Text) (s : Span) : Extent :=
  let stop := min s.stop (Text.byteLength t)
  let start := min s.start stop
  { positions := ⟨Text.positionAt t start, Text.positionAt t stop⟩
    bytes := ⟨Text.snap t start, Text.snap t stop⟩ }

def contains (r : Extent) (p : Position) : Bool := r.positions.contains p

def length (r : Extent) : Nat := r.bytes.stop - r.bytes.start

def isEmpty (r : Extent) : Bool := r.bytes.stop ≤ r.bytes.start

def text (t : Text) (r : Extent) : Text := t.slice r.bytes.start r.bytes.stop

end Extent

end ModuleLens
