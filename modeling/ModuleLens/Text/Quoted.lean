import ModuleLens.Text.Class

/-! Quoted texts in outlines.  A text stands between double quotes; quotes, backslashes and what
cannot be shown are escaped. -/

namespace ModuleLens

namespace Text

def escapeLetter? : Char → Option Char
  | '"' => some '"'
  | '\\' => some '\\'
  | '\n' => some 'n'
  | '\r' => some 'r'
  | '\t' => some 't'
  | '\x00' => some '0'
  | _ => none

/-- The quoted form of one scalar.  Scalars that attach to the one before them, and those that are
not printable, are written by number. -/
def quoteChar (c : Char) : Text :=
  match escapeLetter? c with
  | some d => ['\\', d]
  | none =>
    if isExtending c || !isPrintable c then
      ['\\', 'u', '{'] ++ Nat.toDigits 16 c.toNat ++ ['}']
    else [c]

def quote (t : Text) : Text := '"' :: t.flatMap quoteChar ++ ['"']

end Text

end ModuleLens
