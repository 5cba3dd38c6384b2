import ModuleLens.Table

/-! A store of values that are made once.  A slot is pending while someone makes its value and ready
afterwards.  The operations here are the ones that happen at once; eviction leaves pending slots
alone. -/

namespace ModuleLens

inductive Slot (ν : Type) where
  | pending
  | ready (value : ν)
deriving DecidableEq, Repr

abbrev SharedStore (κ ν : Type) := Table κ (Slot ν)

namespace SharedStore

variable {κ ν : Type} [DecidableEq κ]

inductive Claim (κ ν : Type) where
  | found (value : ν)
  | busy
  /-- It has to be made: the slot is pending now. -/
  | granted (store : SharedStore κ ν)

def claim (s : SharedStore κ ν) (key : κ) : Claim κ ν :=
  match s.get? key with
  | some (.ready value) => .found value
  | some .pending => .busy
  | none => .granted (s.insert key .pending)

def publish (s : SharedStore κ ν) (key : κ) (value : ν) : SharedStore κ ν :=
  s.insert key (.ready value)

def abandon (s : SharedStore κ ν) (key : κ) : SharedStore κ ν := s.erase key

def value? (s : SharedStore κ ν) (key : κ) : Option ν :=
  match s.get? key with
  | some (.ready value) => some value
  | _ => none

def remove (s : SharedStore κ ν) (key : κ) : Option ν × SharedStore κ ν :=
  match value? s key with
  | some value => (some value, s.erase key)
  | none => (none, s)

omit [DecidableEq κ]

def prune (s : SharedStore κ ν) (keep : κ → ν → Bool) : SharedStore κ ν :=
  s.filter fun key slot =>
    match slot with
    | .pending => true
    | .ready value => keep key value

end SharedStore

end ModuleLens
