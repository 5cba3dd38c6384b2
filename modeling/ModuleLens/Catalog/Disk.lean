import ModuleLens.Location.Path
import ModuleLens.Text.Utf8

/-! A disk as a tree of directories.  Paths are walked component by component from the current
directory, which is the top of what is known; above it there are only bare directories. -/

namespace ModuleLens

inductive DiskEntry where
  | file (bytes : List Nat)
  | directory
deriving DecidableEq, Repr

/-- The files and directories below the current directory, by path; directories on the way to an
entry exist as well. -/
structure Disk where
  entries : List (List Text × DiskEntry) := []

namespace Disk

inductive Fault where
  | missing
  | isDirectory
  | notDirectory
  | notText
  | invalidPath
deriving DecidableEq, Repr

def Fault.message : Fault → String
  | missing => "No such file or directory (os error 2)"
  | isDirectory => "Is a directory (os error 21)"
  | notDirectory => "Not a directory (os error 20)"
  | notText => "stream did not contain valid UTF-8"
  | invalidPath => "file name contained an unexpected NUL byte"

def entry? (d : Disk) (components : List Text) : Option DiskEntry :=
  match d.entries.find? fun e => e.1 = components with
  | some e => some e.2
  | none =>
    if components.isEmpty || d.entries.any fun e => e.1.take components.length = components then
      some .directory
    else none

/-- Where a walk is: below the current directory, so many levels above it, or at the root. -/
inductive Place where
  | below (components : List Text)
  | above (levels : Nat)
  | root
deriving DecidableEq, Repr

def entryAt? (d : Disk) : Place → Option DiskEntry
  | .below components => d.entry? components
  | .above _ => some .directory
  | .root => some .directory

def enter (d : Disk) (place : Place) (component : Text) : Except Fault Place :=
  match d.entryAt? place with
  | none => .error .missing
  | some (.file _) => .error .notDirectory
  | some .directory =>
    if component = [] ∨ component = ['.'] then .ok place
    else if component = ['.', '.'] then
      match place with
      | .below [] => .ok (.above 1)
      | .below components => .ok (.below components.dropLast)
      | .above levels => .ok (.above (levels + 1))
      | .root => .ok .root
    else
      match place with
      | .below components => .ok (.below (components ++ [component]))
      | .above _ => .error .missing
      | .root => .error .missing

def walk (d : Disk) (path : Text) : Except Fault Place :=
  match path.splitOn '/' with
  | [] :: rest => rest.foldlM d.enter .root
  | components => components.foldlM d.enter (.below [])

def read (d : Disk) (path : Text) : Except Fault Text :=
  if path.contains '\x00' then .error .invalidPath
  else if path.isEmpty then .error .missing
  else
    match d.walk path with
    | .error e => .error e
    | .ok place =>
      match d.entryAt? place with
      | none => .error .missing
      | some .directory => .error .isDirectory
      | some (.file bytes) =>
        if Utf8.isValid bytes then .ok (Utf8.decode bytes) else .error .notText

end Disk

end ModuleLens
