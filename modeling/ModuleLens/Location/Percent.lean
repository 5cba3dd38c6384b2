import ModuleLens.Text.Utf8

/-! Percent coding of paths.  Letters, digits and `-._~/` stand for themselves; every other byte
is written `%XX` with upper-case digits.  Reading takes digits of either case, leaves a percent
sign that no two digits follow as it is, and reads the bytes as UTF-8. -/

namespace ModuleLens

namespace Percent

def isKept (b : Nat) : Bool :=
  (65 ≤ b && b ≤ 90) || (97 ≤ b && b ≤ 122) || (48 ≤ b && b ≤ 57) ||
    b == 45 || b == 46 || b == 95 || b == 126 || b == 47

def digit (n : Nat) : Nat := if n < 10 then 48 + n else 55 + n

def digitValue? (b : Nat) : Option Nat :=
  if 48 ≤ b ∧ b ≤ 57 then some (b - 48)
  else if 97 ≤ b ∧ b ≤ 102 then some (b - 87)
  else if 65 ≤ b ∧ b ≤ 70 then some (b - 55)
  else none

def escapeByte (b : Nat) : List Nat :=
  if isKept b then [b] else [37, digit (b / 16), digit (b % 16)]

def unescape : List Nat → List Nat
  | [] => []
  | 37 :: h :: l :: rest =>
    match digitValue? h, digitValue? l with
    | some high, some low => (high * 16 + low) :: unescape rest
    | _, _ => 37 :: unescape (h :: l :: rest)
  | b :: rest => b :: unescape rest

def encode (path : Text) : Text := ((Utf8.encode path).flatMap escapeByte).map Char.ofNat

def decode (written : Text) : Text := Utf8.decode (unescape (Utf8.encode written))

end Percent

end ModuleLens
