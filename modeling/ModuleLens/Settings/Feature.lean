import ModuleLens.Text

/-! The editor features that the analysis can serve. -/

namespace ModuleLens

inductive Feature where
  | completion
  | rename
  | documentSymbols
  | semanticTokens
  | definition
  | diagnostics
deriving DecidableEq, Repr

namespace Feature

def all : List Feature :=
  [completion, rename, documentSymbols, semanticTokens, definition, diagnostics]

def name : Feature → String
  | completion => "completion"
  | rename => "rename"
  | documentSymbols => "documentSymbols"
  | semanticTokens => "semanticTokens"
  | definition => "definition"
  | diagnostics => "diagnostics"

def ofName? (t : Text) : Option Feature := all.find? fun f => f.name.toList == t

def isExperimental : Feature → Bool
  | rename | semanticTokens | diagnostics => true
  | completion | documentSymbols | definition => false

def isDefault (f : Feature) : Bool := !f.isExperimental

end Feature

end ModuleLens
