import ModuleLens.Text

/-! UTF-8.  Scalars are written as one to four bytes; any bytes can be read back, each longest
piece of an ill-formed sequence giving one replacement scalar.  Bytes are natural numbers. -/

namespace ModuleLens

namespace Utf8

def encodeChar (c : Char) : List Nat :=
  let n := c.toNat
  if n < 0x80 then [n]
  else if n < 0x800 then [0xC0 + n / 64, 0x80 + n % 64]
  else if n < 0x10000 then [0xE0 + n / 4096, 0x80 + n / 64 % 64, 0x80 + n % 64]
  else [0xF0 + n / 262144, 0x80 + n / 4096 % 64, 0x80 + n / 64 % 64, 0x80 + n % 64]

def encode (t : Text) : List Nat := t.flatMap encodeChar

def replacement : Char := '\ufffd'

/-- Where a reader is: between scalars, or inside one with `more` bytes to come, the next of
which must lie from `low` to `high`. -/
inductive State where
  | between
  | inside (more low high value : Nat)
deriving DecidableEq, Repr

/-- What the first byte of a sequence leads to: a finished scalar, a state, or nothing. -/
inductive Lead where
  | scalar (c : Char)
  | opens (state : State)
  | invalid

/-- Reads the first byte of a sequence.  The bounds on the second byte exclude overlong forms,
surrogates and values beyond the last scalar. -/
def lead (b : Nat) : Lead :=
  if b < 0x80 then .scalar (Char.ofNat b)
  else if b < 0xC2 then .invalid
  else if b < 0xE0 then .opens (.inside 1 0x80 0xBF (b - 0xC0))
  else if b = 0xE0 then .opens (.inside 2 0xA0 0xBF 0)
  else if b = 0xED then .opens (.inside 2 0x80 0x9F 0xD)
  else if b < 0xF0 then .opens (.inside 2 0x80 0xBF (b - 0xE0))
  else if b = 0xF0 then .opens (.inside 3 0x90 0xBF 0)
  else if b < 0xF4 then .opens (.inside 3 0x80 0xBF (b - 0xF0))
  else if b = 0xF4 then .opens (.inside 3 0x80 0x8F 4)
  else .invalid

/-- One byte: the scalars it gives and the state after it. -/
def step (s : State) (b : Nat) : Text × State :=
  let fresh : Text × State :=
    match lead b with
    | .scalar c => ([c], .between)
    | .opens s => ([], s)
    | .invalid => ([replacement], .between)
  match s with
  | .between => fresh
  | .inside more low high value =>
    if low ≤ b ∧ b ≤ high then
      let value := value * 64 + (b - 0x80)
      if more ≤ 1 then ([Char.ofNat value], .between)
      else ([], .inside (more - 1) 0x80 0xBF value)
    else
      (replacement :: fresh.1, fresh.2)

def decodeFrom : State → List Nat → Text
  | .between, [] => []
  | .inside .., [] => [replacement]
  | s, b :: bs => (step s b).1 ++ decodeFrom (step s b).2 bs

def decode (bs : List Nat) : Text := decodeFrom .between bs

def isValid (bs : List Nat) : Bool := encode (decode bs) == bs

end Utf8

end ModuleLens
