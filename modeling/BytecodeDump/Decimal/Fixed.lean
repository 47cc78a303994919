-- Fractions with a fixed number of digits after the point.
import BytecodeDump.Decimal.Numeral
import BytecodeDump.Double

namespace BytecodeDump

namespace Decimal

/-- The numeral nearest to `num / den` with so many places; a half goes to the even
neighbour. -/
def fixed (places num den : Nat) : Numeral :=
  let units := roundHalfEven (num * Numeral.tenTo places) den
  { whole := units / Numeral.tenTo places, fraction := Numeral.lastDigits places units }

/-- A finite double that is not negative, with so many places. -/
def fixedDouble (places : Nat) (x : Double) : String :=
  let (num, den) := x.magnitude
  (fixed places num den).text false

end Decimal

end BytecodeDump
