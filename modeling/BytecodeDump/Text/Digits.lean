-- Digits in base 16, and texts of a least length.

namespace BytecodeDump

namespace Text

/-! ## Base 16 -/

/-- The digits of a number in base 16, in small letters. -/
def hex (n : Nat) : String := String.ofList (Nat.toDigits 16 n)

/-- The value of a digit of base 16, in small or large letters. -/
def hexDigit? (c : Char) : Option Nat :=
  if '0' ≤ c ∧ c ≤ '9' then some (c.toNat - '0'.toNat)
  else if 'a' ≤ c ∧ c ≤ 'f' then some (c.toNat - 'a'.toNat + 10)
  else if 'A' ≤ c ∧ c ≤ 'F' then some (c.toNat - 'A'.toNat + 10)
  else none

/-- The number that the characters spell in base 16. -/
def hexValue? (cs : List Char) : Option Nat :=
  cs.foldlM (fun n c => (hexDigit? c).map (16 * n + ·)) 0

/-! ## Length -/

/-- The text with as many of `fill` before it as make it `width` characters long. -/
def padLeft (fill : Char) (width : Nat) (text : String) : String :=
  String.ofList (List.replicate (width - text.length) fill) ++ text

/-- The text with as many blanks after it as make it `width` characters long. -/
def padRight (width : Nat) (text : String) : String :=
  text ++ String.ofList (List.replicate (width - text.length) ' ')

/-- A number with zeros before it, at least four digits long. -/
def index4 (n : Nat) : String := padLeft '0' 4 (toString n)

end Text

end BytecodeDump
