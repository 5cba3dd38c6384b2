import ModuleLens.Import.Edge
import ModuleLens.Proofs.Outline.Members

/-! What the lines of an outline ask for.  Whether a line is a property is told by its words: its
name is one, its type one or none, and its value one, two or three, or none.  Just these lines have
a property as their member. -/

namespace ModuleLens

namespace Outline

def wordsOf (l : Stretch) : List Word := words l.start l.text

def isAtom (t : Text) : Bool := isQuoted t || isName t || Text.isInteger t || Text.isDecimal t

/-- Whether words are a value: an atom, two atoms, or two atoms around an operator. -/
def isValue : List Word → Bool
  | [a] => isAtom a.text
  | [a, b] => isAtom a.text && isAtom b.text
  | [a, o, b] => operators.contains (String.ofList o.text) && isAtom a.text && isAtom b.text
  | _ => false

def isNameAlone : List Word → Bool
  | [w] => isName w.text
  | _ => false

/-- Whether a line is a property: a name, then maybe a colon with a name or nothing after it, and
then maybe an equals sign with a value or nothing after it. -/
def isProperty (l : Stretch) : Bool :=
  isNameAlone (wordsOf (before ':' (before '=' l))) &&
    (after? ':' (before '=' l)).all (fun q => (wordsOf q).isEmpty || isNameAlone (wordsOf q)) &&
    (after? '=' l).all fun q => (wordsOf q).isEmpty || isValue (wordsOf q)

/-- The path of an import, an amends or an extends clause. -/
def linkPath? : List Word → Option Text
  | [keyword, path] => if isLink [keyword, path] then some (Text.literalBody path.text) else none
  | _ => none

def requiredOperator : List Word → List (Span × String)
  | [a, b] => [(⟨a.start, b.span.stop⟩, "Provide binary operator")]
  | _ => []

/-- What a property asks for as a whole: a type or a value, or a value for its equals sign. -/
def requiredWhole (l : Stretch) : List (Span × String) :=
  match after? '=' l with
  | some q => if (wordsOf q).isEmpty then [(l.span, "Provide value")] else []
  | none =>
    if (after? ':' (before '=' l)).isNone then [(l.span, "Provide property type or value.")]
    else []

def requiredProperty (l : Stretch) : List (Span × String) :=
  let colon := (before ':' (before '=' l)).span.stop
  requiredWhole l ++
    (if (after? ':' (before '=' l)).any fun q => (wordsOf q).isEmpty then
      [(⟨colon, colon + 1⟩, "Provide type identifier")] else []) ++
    requiredOperator (((after? '=' l).map wordsOf).getD [])

/-- What a line that is not blank asks for, and where. -/
def required (l : Stretch) : List (Span × String) :=
  match linkPath? (wordsOf l) with
  | some path => [(l.span, "Module not found: " ++ String.ofList path)]
  | none => if isProperty l then requiredProperty l else [(l.span, "Unexpected identifier")]

theorem isSome_atom (w : Word) : (atom w).isSome = isAtom w.text := by
  have hword {s : String} (h : w.text = s.toList) (hs : isAtom s.toList) :
      true = isAtom w.text := by
    rw [h, hs]
  rw [atom]
  split_ifs with h₁ h₂ h₃ h₄ h₅ h₆ h₇
  · exact hword h₁ (by decide)
  · exact hword h₂ (by decide)
  · exact hword h₃ (by decide)
  all_goals simp [isAtom, *]

theorem isSome_expression : ∀ ws : List Word, (expression ws).isSome = isValue ws
  | [] => rfl
  | [w] => isSome_atom w
  | [l, r] => by
    simp only [expression, isValue, ← isSome_atom]
    cases atom l <;> cases atom r <;> rfl
  | [l, o, r] => by
    simp only [expression, isValue, ← isSome_atom]
    cases operators.contains (String.ofList o.text) <;> cases atom l <;> cases atom r <;> rfl
  | _ :: _ :: _ :: _ :: _ => rfl

theorem isSome_typeClause (colon : Nat) (q : Stretch) (hs : q.start = colon + 1) :
    (typeClause colon q.text).isSome = ((wordsOf q).isEmpty || isNameAlone (wordsOf q)) := by
  rw [typeClause, ← hs, ← wordsOf]
  cases wordsOf q with
  | nil => rfl
  | cons w ws =>
    cases ws with
    | nil =>
      dsimp only [isNameAlone]
      split <;> simp [*]
    | cons v ws => rfl

theorem isSome_assignment (equals : Nat) (q : Stretch) (hs : q.start = equals + 1) :
    (assignment equals q.text).isSome = ((wordsOf q).isEmpty || isValue (wordsOf q)) := by
  rw [assignment, ← hs, ← wordsOf]
  cases h : wordsOf q with
  | nil => rfl
  | cons w ws =>
    rw [← isSome_expression]
    exact Option.isSome_map

theorem isSome_nameLeaf (l : Stretch) : (nameLeaf l).isSome = isNameAlone (wordsOf l) := by
  rw [nameLeaf, ← wordsOf]
  cases wordsOf l with
  | nil => rfl
  | cons w ws =>
    cases ws with
    | nil =>
      dsimp only [isNameAlone]
      split <;> simp [*]
    | cons v ws => rfl

/-- A property is read off just the lines that are one. -/
theorem isSome_property (l : Stretch) : (property l.start l.text).isSome = isProperty l := by
  have htypes : (annotations (before '=' l)).isSome =
      (after? ':' (before '=' l)).all fun q => (wordsOf q).isEmpty || isNameAlone (wordsOf q) := by
    cases hq : after? ':' (before '=' l) with
    | none => rw [annotations, hq]; rfl
    | some q =>
      rw [annotations, hq]
      exact Option.isSome_map.trans (isSome_typeClause _ q (after_span hq).1)
  have hvalues : (assigned l).isSome =
      (after? '=' l).all fun q => (wordsOf q).isEmpty || isValue (wordsOf q) := by
    cases hq : after? '=' l with
    | none => rw [assigned, hq]; rfl
    | some q =>
      rw [assigned, hq]
      exact isSome_assignment _ q (after_span hq).1
  rw [property_bind, isProperty, ← isSome_nameLeaf, ← htypes, ← hvalues]
  cases nameLeaf (before ':' (before '=' l)) <;> cases annotations (before '=' l) <;>
    cases assigned l <;> rfl

theorem linkPath?_of_not_link {ws : List Word} (h : isLink ws = false) : linkPath? ws = none := by
  unfold linkPath?
  split
  · rw [h]
    rfl
  · rfl

end Outline

end ModuleLens
