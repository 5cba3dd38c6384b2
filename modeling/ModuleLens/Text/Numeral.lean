import ModuleLens.Text

/-! Words that are numbers.  An integer has an optional sign and decimal digits and fits 64 bits; a
decimal has an optional sign and then digits with at most one point, at least one digit in all, and
an optional exponent, or names infinity or the absence of a number in letters of any case. -/

namespace ModuleLens

namespace Text

def splitSign : Text → Bool × Text
  | '-' :: t => (true, t)
  | '+' :: t => (false, t)
  | t => (false, t)

def decimalValue (t : Text) : Nat := t.foldl (fun n c => n * 10 + (c.toNat - 48)) 0

def isInteger (t : Text) : Bool :=
  let (negative, digits) := splitSign t
  !digits.isEmpty && digits.all Char.isDigit &&
    decimalValue digits < (if negative then 1 <<< 63 + 1 else 1 <<< 63)

def isExponent : Text → Bool
  | [] => true
  | c :: t =>
    let (_, digits) := splitSign t
    (c == 'e' || c == 'E') && !digits.isEmpty && digits.all Char.isDigit

def isDecimal (t : Text) : Bool :=
  let (_, body) := splitSign t
  let lower := body.map Char.toLower
  let whole := body.takeWhile Char.isDigit
  let rest := body.dropWhile Char.isDigit
  let fraction := if rest.head? == some '.' then rest.tail.takeWhile Char.isDigit else []
  let rest := if rest.head? == some '.' then rest.tail.dropWhile Char.isDigit else rest
  lower == "inf".toList || lower == "infinity".toList || lower == "nan".toList ||
    (!(whole.isEmpty && fraction.isEmpty) && isExponent rest)

end Text

end ModuleLens
