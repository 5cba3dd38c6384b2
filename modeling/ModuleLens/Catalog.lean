import ModuleLens.Catalog.Disk
import ModuleLens.Document
import ModuleLens.Table

/-! Finding and reading imported modules.  A path that is itself a location is taken as it is, any
other one is seen from the importing document.  Modules of the standard library are registered by
name; all others come from a disk or from a set of files. -/

namespace ModuleLens

inductive CatalogError where
  | notFound (uri : Uri)
  | unknownStdlibModule (name : Text)
  | unreadable (uri : Uri) (cause : Disk.Fault)
  | invalidUri (error : UriError)
deriving DecidableEq

def CatalogError.message : CatalogError → String
  | notFound uri => "module not found: " ++ String.ofList uri.text
  | unknownStdlibModule name => "unknown standard library module: " ++ String.ofList name
  | unreadable uri cause => "failed to read " ++ String.ofList uri.text ++ ": " ++ cause.message
  | invalidUri error => error.message

structure Catalog where
  locate : Uri → Text → Except CatalogError Uri
  read : Uri → Except CatalogError Document

namespace Catalog

def locatePath (importing : Uri) (path : Text) : Except CatalogError Uri :=
  match Uri.parse path with
  | .ok uri => .ok uri
  | .error _ => (importing.join path).mapError .invalidUri

def stdlibScheme : Text := ['p', 'k', 'l']

/-- The name of a standard library module: its location without the scheme, however often that
stands there. -/
def stdlibName : Text → Text
  | 'p' :: 'k' :: 'l' :: ':' :: rest => stdlibName rest
  | t => t

def readStdlib (stdlib : Table Text Text) (uri : Uri) : Except CatalogError Document :=
  match stdlib.get? (stdlibName uri.text) with
  | some text => .ok ⟨uri, none, text⟩
  | none => .error (.unknownStdlibModule (stdlibName uri.text))

def readWith (stdlib : Table Text Text) (other : Uri → Except CatalogError Document) (uri : Uri) :
    Except CatalogError Document :=
  if uri.scheme = stdlibScheme then readStdlib stdlib uri else other uri

def readDisk (disk : Disk) (uri : Uri) : Except CatalogError Document :=
  match uri.filePath? with
  | none => .error (.notFound uri)
  | some path =>
    match disk.read path with
    | .ok text => .ok ⟨uri, none, text⟩
    | .error .missing => .error (.notFound uri)
    | .error cause => .error (.unreadable uri cause)

def readFiles (files : Table Text Text) (uri : Uri) : Except CatalogError Document :=
  match files.get? uri.text with
  | some text => .ok ⟨uri, none, text⟩
  | none => .error (.notFound uri)

def ofDisk (stdlib : Table Text Text) (disk : Disk) : Catalog :=
  ⟨locatePath, readWith stdlib (readDisk disk)⟩

def ofFiles (stdlib files : Table Text Text) : Catalog :=
  ⟨locatePath, readWith stdlib (readFiles files)⟩

def lookup (c : Catalog) (importing : Uri) (path : Text) : Except CatalogError Document :=
  match c.locate importing path with
  | .ok uri => c.read uri
  | .error e => .error e

/-- A catalog in front of which some documents stand: they are read in place of what it would
read. -/
def shadowedBy (c : Catalog) (documents : Uri → Option Document) : Catalog where
  locate := c.locate
  read uri :=
    match documents uri with
    | some d => .ok d
    | none => c.read uri

end Catalog

end ModuleLens
