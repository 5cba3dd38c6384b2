import ModuleLens.Node.Diagnostics
import ModuleLens.Linker
import ModuleLens.Settings

/-! An editing session.  Documents are opened, changed and closed; each open document has its
snapshot, its syntax tree and its module, rebuilt before the call returns.  Imports of open
documents are served from their snapshots instead of the disk. -/

namespace ModuleLens

structure Tracked where
  document : Document
  module : Node

structure Session where
  trees : TreeStore := {}
  linker : Linker := {}
  opened : Table Uri Tracked := {}

structure SessionEnv where
  settings : Settings
  engine : Engine
  catalog : Catalog
  source : Document → Reading

inductive SessionError where
  | engine (error : EngineError)
  | edit (error : EditError)
  | unknownDocument (uri : Uri)
deriving DecidableEq

def SessionError.message : SessionError → String
  | engine error => error.message
  | edit error => error.message
  | unknownDocument uri => "document is not open: " ++ String.ofList uri.text

namespace SessionEnv

def sourceOf (engine : Engine) (document : Document) : Reading :=
  match engine.parse document.text with
  | some tree => .tree tree
  | none => .failed

end SessionEnv

namespace Session

def start (env : SessionEnv) : Except SessionError Session :=
  match env.engine.check with
  | .ok _ => .ok { linker := .ofWorkers env.settings.workers }
  | .error e => .error (.engine e)

def document? (s : Session) (uri : Uri) : Option Document :=
  (s.opened.get? uri).map Tracked.document

def module? (s : Session) (uri : Uri) : Option Node := (s.opened.get? uri).map Tracked.module

/-- What following imports rests on in a session: open documents stand in front of the catalog. -/
def importEnv (env : SessionEnv) (s : Session) : ImportEnv where
  catalog := env.catalog.shadowedBy s.document?
  source := env.source
  maxDepth := env.settings.maxImportDepth.toNat

/-- Builds the module of a snapshot and makes both current.  Modules built from an older snapshot
are forgotten first. -/
def rebuild (env : SessionEnv) (s : Session) (document : Document) (tree : SyntaxTree) :
    Fate Node × Session :=
  let (fate, linker) :=
    (s.linker.forget document.uri).buildEntryTree (s.importEnv env) tree document
  match fate with
  | .done module =>
    (.done module, { s with linker, opened := s.opened.insert document.uri ⟨document, module⟩ })
  | .unwound => (.unwound, { s with linker })
  | .stuck => (.stuck, { s with linker })

def openDocument (env : SessionEnv) (s : Session) (uri : Uri) (version : Int) (text : Text) :
    Except SessionError (Fate Node) × Session :=
  let document : Document := ⟨uri, some version, text⟩
  match TreeStore.track env.engine s.trees document with
  | (.error e, trees) => (.error (.engine e), { s with trees })
  | (.ok parsed, trees) =>
    let (fate, s) := rebuild env { s with trees } document parsed.tree
    (.ok fate, s)

def change (env : SessionEnv) (s : Session) (uri : Uri) (version : Int) (changes : List Change) :
    Except SessionError (Fate Node) × Session :=
  match s.document? uri with
  | none => (.error (.unknownDocument uri), s)
  | some old =>
    match old.apply changes (some version) with
    | .error e => (.error (.edit e), s)
    | .ok new =>
      match TreeStore.update env.engine s.trees old new changes with
      | (.error e, trees) => (.error (.engine e), { s with trees })
      | (.ok parsed, trees) =>
        let (fate, s) := rebuild env { s with trees } new parsed.tree
        (.ok fate, s)

/-- Closes a document; also says whether it was open. -/
def close (s : Session) (uri : Uri) : Bool × Session :=
  (s.opened.contains uri,
    { trees := (TreeStore.forget s.trees uri).2
      linker := s.linker.forget uri
      opened := s.opened.erase uri })

def diagnostics (s : Session) (uri : Uri) : Except SessionError (List Diagnostic) :=
  match s.module? uri with
  | some module => .ok module.diagnostics
  | none => .error (.unknownDocument uri)

def at? (s : Session) (uri : Uri) (p : Position) : Option Node :=
  (s.module? uri).bind fun m => m.at? p

def definition? (s : Session) (uri : Uri) (p : Position) : Option Node :=
  (s.module? uri).bind fun m => (m.at? p).bind m.definition?

def openUris (s : Session) : List Uri :=
  sortBy (fun a b => (compare a.text b.text).isLE) s.opened.keys

end Session

end ModuleLens
