import ModuleLens.Text

/-! Reading JSON from the left.  A reader takes the remaining text and gives a value and what is
left, or says why it stopped: the text ended, it is no JSON, or a value does not fit.  The first
problem from the left decides.  Values that nobody asked for are skipped by `skipValue`, which only
needs them to be well formed. -/

namespace ModuleLens

namespace Json

inductive Fault where
  | ended
  | malformed
  | mistyped
deriving DecidableEq, Repr

def isBlank (c : Char) : Bool := c == ' ' || c == '\n' || c == '\t' || c == '\r'

def skipBlank (t : Text) : Text := t.dropWhile isBlank

def isDigit (c : Char) : Bool := '0' ≤ c && c ≤ '9'

def startsWithDigit (t : Text) : Bool := t.head?.any isDigit

def digitValue (c : Char) : Nat := c.toNat - 48

def hexValue? (c : Char) : Option Nat :=
  if isDigit c then some (digitValue c)
  else if 'a' ≤ c && c ≤ 'f' then some (c.toNat - 87)
  else if 'A' ≤ c && c ≤ 'F' then some (c.toNat - 55)
  else none

def readLetters : Text → Text → Except Fault Text
  | [], t => .ok t
  | _ :: _, [] => .error .ended
  | c :: w, d :: t => if c = d then readLetters w t else .error .malformed

/-! ### Strings -/

/-- Where a reader is inside a string.  `hex` has `more` digits of a code unit to read, after the
first half `high` of a surrogate pair if there was one; `joint` and `second` stand between the
halves of a pair. -/
inductive StringState where
  | plain
  | escaped
  | hex (more value : Nat) (high : Option Nat)
  | joint (high : Nat)
  | second (high : Nat)
deriving DecidableEq, Repr

def shortEscape? : Char → Option Char
  | '"' => some '"'
  | '\\' => some '\\'
  | '/' => some '/'
  | 'b' => some '\x08'
  | 'f' => some '\x0c'
  | 'n' => some '\n'
  | 'r' => some '\r'
  | 't' => some '\t'
  | _ => none

def enterHex (high : Option Nat) (rest : Text) : Except Fault StringState :=
  if Text.byteLength (rest.take 4) < 4 then .error .ended else .ok (.hex 4 0 high)

/-- What a code unit amounts to.  Unless the reader is lenient, halves of surrogate pairs must come
in order and together. -/
def finishHex (lenient : Bool) (unit : Nat) (high : Option Nat) :
    Except Fault (Text × StringState) :=
  if lenient then .ok ([], .plain)
  else
    match high with
    | none =>
      if 0xDC00 ≤ unit ∧ unit ≤ 0xDFFF then .error .malformed
      else if 0xD800 ≤ unit ∧ unit ≤ 0xDBFF then .ok ([], .joint unit)
      else .ok ([Char.ofNat unit], .plain)
    | some high =>
      if 0xDC00 ≤ unit ∧ unit ≤ 0xDFFF then
        .ok ([Char.ofNat (0x10000 + (high - 0xD800) * 0x400 + (unit - 0xDC00))], .plain)
      else .error .malformed

/-- One scalar inside a string, not its closing quote: what it adds and the state after it. -/
def stringStep (lenient : Bool) (s : StringState) (c : Char) (rest : Text) :
    Except Fault (Text × StringState) :=
  match s with
  | .plain =>
    if c = '\\' then .ok ([], .escaped)
    else if c.toNat < 0x20 then .error .malformed
    else .ok ([c], .plain)
  | .escaped =>
    if c = 'u' then (enterHex none rest).map fun s => ([], s)
    else
      match shortEscape? c with
      | some d => .ok ([d], .plain)
      | none => .error .malformed
  | .hex more value high =>
    match hexValue? c with
    | none => .error .malformed
    | some d =>
      if more ≤ 1 then finishHex lenient (value * 16 + d) high
      else .ok ([], .hex (more - 1) (value * 16 + d) high)
  | .joint high => if c = '\\' then .ok ([], .second high) else .error .malformed
  | .second high =>
    if c = 'u' then (enterHex (some high) rest).map fun s => ([], s) else .error .malformed

def readStringFrom (lenient : Bool) : StringState → Text → Except Fault (Text × Text)
  | _, [] => .error .ended
  | s, c :: t =>
    if s = .plain ∧ c = '"' then .ok ([], t)
    else
      match stringStep lenient s c t with
      | .error e => .error e
      | .ok (out, s) =>
        match readStringFrom lenient s t with
        | .error e => .error e
        | .ok (more, rest) => .ok (out ++ more, rest)

def readString (t : Text) : Except Fault (Text × Text) := readStringFrom false .plain t

/-- Skips a string after its opening quote; a lone half of a surrogate pair is let pass. -/
def skipString (t : Text) : Except Fault Text := (readStringFrom true .plain t).map Prod.snd

/-! ### Numbers -/

/-- The number nearest to `n` that 53 bits can hold, a tie going to the even one. -/
def nearest53 (n : Nat) : Nat :=
  let shift := n.log2 - 52
  let unit := 1 <<< shift
  let low := n / unit
  let twice := 2 * (n % unit)
  (if unit < twice ∨ (twice = unit ∧ low % 2 = 1) then low + 1 else low) * unit

/-- Whether `significand · 10 ^ exponent`, computed with 53 bits, lies beyond the range of a
double. -/
def isTooLarge (significand : Nat) (exponent : Int) : Bool :=
  significand != 0 && 0 ≤ exponent &&
    (308 < exponent ||
      1 <<< 1024 - 1 <<< 970 ≤ nearest53 significand * nearest53 (Nat.pow 10 exponent.toNat))

structure Gathered where
  significand : Nat
  dropped : Nat
deriving DecidableEq, Repr

/-- Takes one more digit unless an earlier one, or this one, does not fit. -/
def Gathered.push (g : Gathered) (c : Char) : Gathered :=
  let next := g.significand * 10 + digitValue c
  if g.dropped = 0 ∧ next < UInt64.size then ⟨next, 0⟩ else ⟨g.significand, g.dropped + 1⟩

def digits (t : Text) : Text := t.takeWhile isDigit

def afterDigits (t : Text) : Text := t.dropWhile isDigit

def readExponent (t : Text) : Except Fault (Option Int × Text) :=
  match t with
  | [] => .ok (none, t)
  | c :: rest =>
    if c = 'e' ∨ c = 'E' then
      let negative := rest.head? == some '-'
      let signed := negative || rest.head? == some '+'
      let body := if signed then rest.tail else rest
      if body.isEmpty then .error .ended
      else if startsWithDigit body then
        let value : Nat := (digits body).foldl (fun n d => n * 10 + digitValue d) 0
        .ok (some (if negative then -value else value), afterDigits body)
      else .error .malformed
    else .ok (none, t)

def readFraction (t : Text) : Except Fault (Option Text × Text) :=
  match t with
  | '.' :: rest =>
    if startsWithDigit rest then .ok (some (digits rest), afterDigits rest)
    else if rest.isEmpty then .error .ended
    else .error .malformed
  | _ => .ok (none, t)

/-- Reads a number.  It is given as a natural number if it is written without sign, fraction and
exponent and fits 64 bits; a number beyond the range of a double is no number. -/
def readNumber (t : Text) : Except Fault (Option Nat × Text) := do
  let negative := t.head? == some '-'
  let body := if negative then t.tail else t
  if body.isEmpty then throw .ended
  if !startsWithDigit body then throw .malformed
  if body.head? == some '0' && startsWithDigit body.tail then throw .malformed
  let whole := (digits body).foldl Gathered.push ⟨0, 0⟩
  let (fraction, rest) ← readFraction (afterDigits body)
  let (exponent, rest) ← readExponent rest
  let all := (fraction.getD []).foldl Gathered.push ⟨whole.significand, 0⟩
  let taken := (fraction.getD []).length - all.dropped
  let power : Int := whole.dropped - taken + exponent.getD 0
  if isTooLarge all.significand power then throw .malformed
  if negative || fraction.isSome || exponent.isSome || whole.dropped != 0 then
    return (none, rest)
  return (some whole.significand, rest)

/-- Skips the exponent of a number; a text that ends inside it is malformed. -/
def skipExponent (t : Text) : Except Fault Text :=
  match readExponent t with
  | .ok (_, rest) => .ok rest
  | .error _ => .error .malformed

/-- Skips a number without its sign, of any size; a text that ends inside it is malformed. -/
def skipNumber (t : Text) : Except Fault Text :=
  if startsWithDigit t then
    if t.head? == some '0' && startsWithDigit t.tail then .error .malformed
    else
      match readFraction (afterDigits t) with
      | .ok (_, rest) => skipExponent rest
      | .error _ => .error .malformed
  else .error .malformed

/-! ### Values nobody asked for -/

mutual

/-- Skips a value.  Every element and every nested value takes one from the count; twice the length
of the text and two more are enough. -/
def skipValue : Nat → Text → Except Fault Text
  | 0, _ => .error .ended
  | n + 1, t =>
    match skipBlank t with
    | [] => .error .ended
    | 'n' :: rest => readLetters ['u', 'l', 'l'] rest
    | 't' :: rest => readLetters ['r', 'u', 'e'] rest
    | 'f' :: rest => readLetters ['a', 'l', 's', 'e'] rest
    | '-' :: rest => skipNumber rest
    | '"' :: rest => skipString rest
    | '[' :: rest =>
      match skipBlank rest with
      | ']' :: rest => .ok rest
      | rest => skipElements n rest
    | '{' :: rest =>
      match skipBlank rest with
      | '}' :: rest => .ok rest
      | rest => skipMembers n rest
    | c :: rest => if isDigit c then skipNumber (c :: rest) else .error .malformed

def skipElements : Nat → Text → Except Fault Text
  | 0, _ => .error .ended
  | n + 1, t =>
    match skipValue n t with
    | .error e => .error e
    | .ok rest =>
      match skipBlank rest with
      | [] => .error .ended
      | ',' :: rest => skipElements n rest
      | ']' :: rest => .ok rest
      | _ => .error .malformed

def skipMembers : Nat → Text → Except Fault Text
  | 0, _ => .error .ended
  | n + 1, t =>
    match skipBlank t with
    | [] => .error .ended
    | '"' :: rest =>
      match skipString rest with
      | .error e => .error e
      | .ok rest =>
        match skipBlank rest with
        | [] => .error .ended
        | ':' :: rest =>
          match skipValue n rest with
          | .error e => .error e
          | .ok rest =>
            match skipBlank rest with
            | [] => .error .ended
            | ',' :: rest => skipMembers n rest
            | '}' :: rest => .ok rest
            | _ => .error .malformed
        | _ => .error .malformed
    | _ => .error .malformed

end

/-! ### Values of a known type -/

/-- What is wrong with a value, the first scalar of which says that it has the wrong type: it must
still be read as far as its first token. -/
def misfit (t : Text) : Fault :=
  let orMistyped {α : Type} (r : Except Fault α) : Fault :=
    match r with
    | .error e => e
    | .ok _ => .mistyped
  match t with
  | [] => .ended
  | 'n' :: rest => orMistyped (readLetters ['u', 'l', 'l'] rest)
  | 't' :: rest => orMistyped (readLetters ['r', 'u', 'e'] rest)
  | 'f' :: rest => orMistyped (readLetters ['a', 'l', 's', 'e'] rest)
  | '"' :: rest => orMistyped (readString rest)
  | '[' :: _ => .mistyped
  | '{' :: _ => .mistyped
  | c :: rest =>
    if c = '-' ∨ isDigit c then orMistyped (readNumber (c :: rest)) else .malformed

def readNatural (t : Text) : Except Fault (Nat × Text) :=
  let t := skipBlank t
  if t.head? == some '-' || startsWithDigit t then
    match readNumber t with
    | .error e => .error e
    | .ok (some n, rest) => .ok (n, rest)
    | .ok (none, _) => .error .mistyped
  else .error (misfit t)

def readBool (t : Text) : Except Fault (Bool × Text) :=
  match skipBlank t with
  | 't' :: rest => (readLetters ['r', 'u', 'e'] rest).map fun rest => (true, rest)
  | 'f' :: rest => (readLetters ['a', 'l', 's', 'e'] rest).map fun rest => (false, rest)
  | t => .error (misfit t)

def readNull (t : Text) : Except Fault Text :=
  match skipBlank t with
  | 'n' :: rest => readLetters ['u', 'l', 'l'] rest
  | t => .error (misfit t)

def readColon (t : Text) : Except Fault Text :=
  match skipBlank t with
  | [] => .error .ended
  | ':' :: rest => .ok rest
  | _ => .error .malformed

def nextElement (first : Bool) (t : Text) : Except Fault (Option Text) :=
  match skipBlank t with
  | [] => .error .ended
  | ']' :: _ => .ok none
  | c :: rest =>
    if first then .ok (some (c :: rest))
    else if c = ',' then
      match skipBlank rest with
      | [] => .error .ended
      | ']' :: _ => .error .malformed
      | rest => .ok (some rest)
    else .error .malformed

def endArray (t : Text) : Except Fault Text :=
  match skipBlank t with
  | [] => .error .ended
  | ']' :: rest => .ok rest
  | _ => .error .malformed

/-- Whether another member of an object follows: the text after the opening quote of its key, or
the text after the end of the object. -/
def nextMember (first : Bool) (t : Text) : Except Fault (Text ⊕ Text) :=
  let key (t : Text) : Except Fault (Text ⊕ Text) :=
    match t with
    | [] => .error .ended
    | '"' :: rest => .ok (.inl rest)
    | _ => .error .malformed
  match skipBlank t with
  | [] => .error .ended
  | '}' :: rest => .ok (.inr rest)
  | c :: rest =>
    if first then key (c :: rest)
    else if c = ',' then key (skipBlank rest)
    else .error .malformed

end Json

end ModuleLens
