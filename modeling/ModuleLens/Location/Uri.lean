import ModuleLens.Location.Path
import ModuleLens.Location.Percent

/-! Document locations.  A location is an absolute URI: a scheme of at least two characters, a
colon and something after it.  A location whose text starts with `file://` names a path, and
relative locations are found from the directory of that path. -/

namespace ModuleLens

namespace Uri

def splitScheme? (t : Text) : Option (Text × Text) :=
  match t.dropWhile (· != ':') with
  | [] => none
  | _ :: rest => some (t.takeWhile (· != ':'), rest)

/-- Whether a scheme starts with a letter and goes on with letters, digits, `+`, `-` and `.`. -/
def isScheme : Text → Bool
  | [] => false
  | c :: rest => c.isAlpha && rest.all fun d => d.isAlphanum || d == '+' || d == '-' || d == '.'

/-- Whether a text is an absolute URI.  One letter before the colon is a drive, not a scheme. -/
def isAbsolute (t : Text) : Bool :=
  match splitScheme? t with
  | none => false
  | some (scheme, rest) => 2 ≤ scheme.length && !rest.isEmpty && isScheme scheme

end Uri

structure Uri where
  text : Text
  absolute : Uri.isAbsolute text = true
deriving DecidableEq

inductive UriError where
  | empty
  | missingScheme (text : Text)
  | notAFile (text : Text)
deriving DecidableEq, Repr

def UriError.message : UriError → String
  | empty => "empty document uri"
  | missingScheme t => "document uri '" ++ String.ofList t ++ "' has no scheme"
  | notAFile t => "document uri '" ++ String.ofList t ++ "' is not a file uri"

namespace Uri

def parse (t : Text) : Except UriError Uri :=
  if t.isEmpty then .error .empty
  else if h : isAbsolute t = true then .ok ⟨t, h⟩
  else .error (.missingScheme t)

def fileStart : Text := ['f', 'i', 'l', 'e', ':', '/', '/']

def localHost : Text := ['l', 'o', 'c', 'a', 'l', 'h', 'o', 's', 't', '/']

theorem isAbsolute_file (t : Text) : isAbsolute (fileStart ++ t) = true := rfl

def scheme (u : Uri) : Text := u.text.takeWhile (· != ':')

def isFile (u : Uri) : Bool := u.scheme.map Char.toLower == ['f', 'i', 'l', 'e']

def filePath? (u : Uri) : Option Text :=
  (Text.dropPrefix? fileStart u.text).map fun rest =>
    Percent.decode ((Text.dropPrefix? localHost rest).getD rest)

def ofPath (p : Path) : Uri := ⟨fileStart ++ Percent.encode p.render, isAbsolute_file _⟩

def ofFilePath (current : Path) (path : Text) : Uri := ofPath (Path.absolute current path).normalize

/-- The location of `relative` seen from the directory that holds the document `u`. -/
def join (u : Uri) (relative : Text) : Except UriError Uri :=
  match u.filePath? with
  | none => .error (.notAFile u.text)
  | some path =>
    let directory := (Path.parse path).parent?.getD Path.root
    .ok (ofPath (directory.join (Path.parse relative)).normalize)

end Uri

end ModuleLens
