import ModuleLens.Settings.Feature
import ModuleLens.Settings.Json

/-! Settings of the analysis and their JSON form.  Settings are read from an object with named
members in any order, or from an array in field order; what is absent keeps its default and
unknown members are skipped. -/

namespace ModuleLens

structure Settings where
  /-- How many imports deep modules are followed; none at zero. -/
  maxImportDepth : UInt64 := 3
  workerThreads : UInt64 := 4
  importTimeoutMs : UInt64 := 5000
  enableExperimentalFeatures : Bool := false
  disabledFeatures : List Feature := []
deriving DecidableEq, Repr

namespace Settings

/-- The number of workers, never zero. -/
def workers (s : Settings) : Nat := max 1 s.workerThreads.toNat

def isEnabled (s : Settings) (f : Feature) : Bool :=
  (f.isDefault || (f.isExperimental && s.enableExperimentalFeatures)) &&
    !s.disabledFeatures.contains f

def features (s : Settings) : List Feature := Feature.all.filter s.isEnabled

inductive Field where
  | maxImportDepth
  | workerThreads
  | importTimeoutMs
  | enableExperimentalFeatures
  | disabledFeatures
deriving DecidableEq, Repr

namespace Field

def all : List Field :=
  [maxImportDepth, workerThreads, importTimeoutMs, enableExperimentalFeatures, disabledFeatures]

def name : Field → String
  | maxImportDepth => "maxImportDepth"
  | workerThreads => "workerThreads"
  | importTimeoutMs => "importTimeoutMs"
  | enableExperimentalFeatures => "enableExperimentalFeatures"
  | disabledFeatures => "disabledFeatures"

def ofName? (t : Text) : Option Field := all.find? fun f => f.name.toList == t

end Field

open Json

def featureNamed (name : Text) : Except Fault Feature :=
  match Feature.ofName? name with
  | some f => .ok f
  | none => .error .mistyped

/-- Reads a feature: its name, or an object with its name for a key and `null` for the value. -/
def readFeature (t : Text) : Except Fault (Feature × Text) := do
  match skipBlank t with
  | [] => throw .ended
  | '"' :: rest =>
    let (name, rest) ← readString rest
    let f ← featureNamed name
    return (f, rest)
  | '{' :: rest =>
    match skipBlank rest with
    | '"' :: rest =>
      let (name, rest) ← readString rest
      let f ← featureNamed name
      let rest ← readColon rest
      let rest ← readNull rest
      match skipBlank rest with
      | [] => throw .ended
      | '}' :: rest => return (f, rest)
      | _ => throw .malformed
    | [] => throw .ended
    | _ => throw .malformed
  | _ => throw .malformed

def readFeaturesFrom : Nat → Bool → Text → Except Fault (List Feature × Text)
  | 0, _, _ => .error .ended
  | n + 1, first, t =>
    match nextElement first t with
    | .error e => .error e
    | .ok none => (endArray t).map fun rest => ([], rest)
    | .ok (some t) =>
      match readFeature t with
      | .error e => .error e
      | .ok (f, rest) => (readFeaturesFrom n false rest).map fun (fs, rest) => (f :: fs, rest)

def readFeatures (t : Text) : Except Fault (List Feature × Text) :=
  match skipBlank t with
  | '[' :: rest => readFeaturesFrom (rest.length + 1) true rest
  | t => .error (misfit t)

def readField (s : Settings) (field : Field) (t : Text) : Except Fault (Settings × Text) :=
  match field with
  | .maxImportDepth =>
    (readNatural t).map fun (n, rest) => ({ s with maxImportDepth := .ofNat n }, rest)
  | .workerThreads =>
    (readNatural t).map fun (n, rest) => ({ s with workerThreads := .ofNat n }, rest)
  | .importTimeoutMs =>
    (readNatural t).map fun (n, rest) => ({ s with importTimeoutMs := .ofNat n }, rest)
  | .enableExperimentalFeatures =>
    (readBool t).map fun (b, rest) => ({ s with enableExperimentalFeatures := b }, rest)
  | .disabledFeatures =>
    (readFeatures t).map fun (fs, rest) => ({ s with disabledFeatures := fs }, rest)

/-- Reads the remaining members of an object; a field may be given once.  The count bounds the
members and the nesting of what is skipped. -/
def readMembers : Nat → Bool → List Field → Settings → Text → Except Fault (Settings × Text)
  | 0, _, _, _, _ => .error .ended
  | n + 1, first, seen, s, t => do
    match ← nextMember first t with
    | .inr rest => return (s, rest)
    | .inl t =>
      let (key, t) ← readString t
      match Field.ofName? key with
      | none =>
        let t ← readColon t
        let t ← skipValue n t
        readMembers n false seen s t
      | some field =>
        if seen.contains field then throw .mistyped
        let t ← readColon t
        let (s, t) ← readField s field t
        readMembers n false (field :: seen) s t

/-- Reads the elements of the array form; the fields after its end keep their defaults. -/
def readElements : List Field → Bool → Settings → Text → Except Fault (Settings × Text)
  | [], _, s, t => (endArray t).map fun rest => (s, rest)
  | field :: fields, first, s, t =>
    match nextElement first t with
    | .error e => .error e
    | .ok none => (endArray t).map fun rest => (s, rest)
    | .ok (some t) =>
      match readField s field t with
      | .error e => .error e
      | .ok (s, t) => readElements fields false s t

def ofJson (t : Text) : Except Fault Settings := do
  let (s, rest) ←
    match skipBlank t with
    | '{' :: rest => readMembers (2 * rest.length + 3) true [] {} rest
    | '[' :: rest => readElements Field.all true {} rest
    | t => .error (misfit t)
  if (skipBlank rest).isEmpty then return s else throw .malformed

/-- Puts a text between double quotes; the texts of this form need no escapes. -/
def quoted (s : String) : Text := '"' :: s.toList ++ ['"']

def fieldJson (s : Settings) : Field → Text
  | .maxImportDepth => (toString s.maxImportDepth.toNat).toList
  | .workerThreads => (toString s.workerThreads.toNat).toList
  | .importTimeoutMs => (toString s.importTimeoutMs.toNat).toList
  | .enableExperimentalFeatures =>
    if s.enableExperimentalFeatures then ['t', 'r', 'u', 'e'] else ['f', 'a', 'l', 's', 'e']
  | .disabledFeatures =>
    '[' :: List.intercalate [','] (s.disabledFeatures.map fun f => quoted f.name) ++ [']']

/-- The JSON form of settings: every field, in field order. -/
def toJson (s : Settings) : Text :=
  '{' :: List.intercalate [','] (Field.all.map fun f => quoted f.name ++ ':' :: s.fieldJson f) ++
    ['}']

end Settings

end ModuleLens
