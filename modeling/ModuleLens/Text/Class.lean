import ModuleLens.Text
import ModuleLens.Text.Alphabetic
import ModuleLens.Text.Extending
import ModuleLens.Text.Numeric
import ModuleLens.Text.Unprintable

/-! Classes of scalars.  The classes are those of the Unicode character database; larger ones are
kept as the list of bounds at which membership changes. -/

namespace ModuleLens

namespace Text

def within : List Nat → Nat → Bool
  | start :: stop :: rest, n => start ≤ n && (n < stop || within rest n)
  | _, _ => false

/-- White space: the Unicode property White_Space. -/
def isSpace (c : Char) : Bool :=
  let n := c.toNat
  (9 ≤ n && n ≤ 13) || n == 0x20 || n == 0x85 || n == 0xA0 || n == 0x1680 ||
    (0x2000 ≤ n && n ≤ 0x200A) || n == 0x2028 || n == 0x2029 || n == 0x202F || n == 0x205F ||
    n == 0x3000

def isAlphabetic (c : Char) : Bool :=
  if c.toNat < 128 then c.isAlpha else within alphabeticBounds c.toNat

def isNumeric (c : Char) : Bool :=
  if c.toNat < 128 then c.isDigit else within numericBounds c.toNat

def isAlphanumeric (c : Char) : Bool := isAlphabetic c || isNumeric c

def isExtending (c : Char) : Bool := within extendingBounds c.toNat

def isPrintable (c : Char) : Bool := !within unprintableBounds c.toNat

def trimStart (t : Text) : Text := t.dropWhile isSpace

def trim (t : Text) : Text := ((trimStart t).reverse.dropWhile isSpace).reverse

end Text

end ModuleLens
