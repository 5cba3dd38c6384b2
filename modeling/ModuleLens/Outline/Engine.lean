import ModuleLens.Outline
import ModuleLens.TreeStore

/-! The line grammar as a parsing engine.  It parses every text, and an update gives the tree that
parsing from scratch gives. -/

namespace ModuleLens

namespace Outline

def engine (version : Nat) : Engine where
  version
  parse t := some (parseStrict t)
  reparse _ _ t := some (parseStrict t)

end Outline

end ModuleLens
