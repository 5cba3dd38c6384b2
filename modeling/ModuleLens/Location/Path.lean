import ModuleLens.Text

/-! Lexical paths.  A path is rooted or not and has components between slashes; folding it drops
`.` and lets `..` take back the component before it.  No file system is asked. -/

namespace ModuleLens

structure Path where
  rooted : Bool
  components : List Text
deriving DecidableEq, Repr, Inhabited

namespace Path

def root : Path := ⟨true, []⟩

/-- Cuts a path at its slashes.  Empty components and `.` are dropped, except for a `.` that an
unrooted path starts with. -/
def parse (t : Text) : Path :=
  let rooted := t.head? == some '/'
  let pieces := (t.splitOn '/').filter (· != [])
  match rooted, pieces with
  | false, ['.'] :: rest => ⟨false, ['.'] :: rest.filter (· != ['.'])⟩
  | rooted, pieces => ⟨rooted, pieces.filter (· != ['.'])⟩

def render (p : Path) : Text :=
  (if p.rooted then ['/'] else []) ++ List.intercalate ['/'] p.components

/-- The path without its last component; the root and the empty path have no parent. -/
def parent? (p : Path) : Option Path :=
  if p.components.isEmpty then none else some ⟨p.rooted, p.components.dropLast⟩

def join (p q : Path) : Path := if q.rooted then q else ⟨p.rooted, p.components ++ q.components⟩

def enter (entered : List Text) (component : Text) : List Text :=
  if component = ['.'] then entered
  else if component = ['.', '.'] then entered.dropLast
  else entered ++ [component]

/-- The path with `.` and `..` folded away; `..` at the start goes nowhere. -/
def normalize (p : Path) : Path := ⟨p.rooted, p.components.foldl enter []⟩

/-- A path taken from the directory `current`; the empty path stays empty. -/
def absolute (current : Path) (t : Text) : Path :=
  if t.isEmpty then parse t else current.join (parse t)

end Path

end ModuleLens
