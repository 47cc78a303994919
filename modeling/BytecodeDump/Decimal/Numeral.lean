-- Decimal numerals: a sign, whole digits, digits after the point, and an exponent.
import BytecodeDump.Text.Digits

namespace BytecodeDump

/-- A number in decimal digits. No digit after the point means no point. -/
structure Numeral where
  negative : Bool := false
  whole : Nat
  fraction : List Nat := []
  exponent : Option Int := none
  deriving DecidableEq, Repr

namespace Numeral

/-- The power of ten with this exponent. -/
def tenTo (exponent : Nat) : Nat := Nat.pow 10 exponent

/-- The digit of a number below ten. -/
def digit (n : Nat) : Char := Char.ofNat ('0'.toNat + n)

/-- The last `count` digits of a number, zeros before it included. -/
def lastDigits : Nat → Nat → List Nat
  | 0, _ => []
  | count + 1, n => n / tenTo count % 10 :: lastDigits count n

/-- The numeral of an integer. -/
def ofInt (n : Int) : Numeral := { negative := n < 0, whole := n.natAbs }

/-- The exponent after its mark; a plus sign stands before it where `plus` asks for one. -/
def exponentText (plus : Bool) (e : Int) : String :=
  "e" ++ (if e < 0 then "-" else if plus then "+" else "") ++ toString e.natAbs

/-- The numeral as text. -/
def text (plus : Bool) (n : Numeral) : String :=
  (if n.negative then "-" else "") ++ toString n.whole
    ++ (if n.fraction.isEmpty then "" else "." ++ String.ofList (n.fraction.map digit))
    ++ n.exponent.elim "" (exponentText plus)

end Numeral

end BytecodeDump
