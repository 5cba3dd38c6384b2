import ModuleLens.Text

/-! Points.  A point addresses a text by row and by byte within the row. -/

namespace ModuleLens

/-- A row and a column in bytes, both from zero. -/
structure Point where
  row : Nat
  column : Nat
deriving DecidableEq, Repr, Inhabited

namespace Point

def advance (p : Point) (c : Char) : Point :=
  if c = '\n' then ⟨p.row + 1, 0⟩ else ⟨p.row, p.column + c.utf8Size⟩

def after (p : Point) (t : Text) : Point := t.foldl advance p

/-- The point of a byte offset, which may lie inside a scalar and is cut to the text. -/
def ofOffset (t : Text) (b : Nat) : Point :=
  let b := min b t.byteLength
  let p := after ⟨0, 0⟩ (t.takeBytes b)
  ⟨p.row, p.column + (b - t.snap b)⟩

end Point

end ModuleLens
