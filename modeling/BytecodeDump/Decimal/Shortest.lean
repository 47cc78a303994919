-- The fewest decimal digits that read back as a given double, and how the digits are
-- laid out. Of two numbers with so few digits the nearer one is taken.
import BytecodeDump.Decimal.Numeral
import BytecodeDump.Double

namespace BytecodeDump

/-! ## The digits -/

/-- Which of two equally near numbers is taken. -/
inductive Tie where
  | up | even
  deriving DecidableEq, Repr

namespace Decimal

/-- The numbers that round to a double: four times the double and the two ends of the
range, in units of a power of two. -/
structure Reach where
  low : Nat
  value : Nat
  high : Nat
  unit : Int
  /-- The ends round to the double too. -/
  closed : Bool
  deriving Repr

/-- The reach of a finite double. It is half as wide below a power of two. -/
def reach (x : Double) : Reach :=
  let m := x.significand
  let below := if x.fractionField = 0 ∧ 1 < x.exponentField then 1 else 2
  ⟨4 * m - below, 4 * m, 4 * m + 2, x.scale - 2, m % 2 = 0⟩

/-- The multiple of `10 ^ power` that rounds to the double and is nearest to it, where
there is one; only the two next to the double can be. -/
def onGrid (tie : Tie) (r : Reach) (power : Int) : Option Nat :=
  let scale := Numeral.tenTo (-power).toNat <<< r.unit.toNat
  let step := Numeral.tenTo power.toNat <<< (-r.unit).toNat
  let value := r.value * scale
  let down := value / step
  let inside (n : Nat) : Bool :=
    if r.closed then r.low * scale ≤ n * step && n * step ≤ r.high * scale
    else r.low * scale < n * step && n * step < r.high * scale
  let upNearer : Bool :=
    let twice := 2 * (value - down * step)
    if twice = step then match tie with
      | .up => true
      | .even => down % 2 = 1
    else step < twice
  if inside down && !(inside (down + 1) && upNearer) then some down
  else if inside (down + 1) then some (down + 1)
  else none

/-- A power of ten above a finite double that is not zero. -/
def powerAbove (x : Double) : Int := ((x.significand.log2 + 1 + x.scale) * 30103) / 100000 + 1

/-- The digits of a finite double that is not zero, and the power of ten of the last
one: those on the coarsest grid that has any. Seventeen digits always do. -/
def shortest (tie : Tie) (x : Double) : Nat × Int :=
  let r := reach x
  let top := powerAbove x
  ((List.range 20).findSome? fun (down : Nat) =>
    let power := top - (down : Int)
    (onGrid tie r power).map (·, power)).getD (0, 0)

/-! ## The layout -/

/-- How the digits of a double are laid out. -/
structure Style where
  tie : Tie
  /-- The least power of ten of a first digit that is written without an exponent. -/
  least : Option Int
  /-- The first power of ten above those. -/
  bound : Option Int
  /-- A number without an exponent has a digit after the point. -/
  point : Bool
  deriving DecidableEq, Repr

namespace Style

/-- Whether a number whose first digit has this power of ten needs no exponent. -/
def positional (s : Style) (first : Int) : Bool :=
  s.least.all (· ≤ first) && s.bound.all (first < ·)

/-- The digits after the point, where a style asks for at least one. -/
def pointed (s : Style) (fraction : List Nat) : List Nat :=
  if fraction.isEmpty && s.point then [0] else fraction

/-- The numeral of a finite double. -/
def numeral (s : Style) (x : Double) : Numeral :=
  if x.isZero then { negative := x.negative, whole := 0, fraction := s.pointed [] }
  else
    let (digits, power) := shortest s.tie x
    let count := (toString digits).length
    let first := power + count - 1
    if s.positional first then
      let places := (-power).toNat
      { negative := x.negative
        whole := digits * Numeral.tenTo power.toNat / Numeral.tenTo places
        fraction := s.pointed (Numeral.lastDigits places digits) }
    else
      { negative := x.negative
        whole := digits / Numeral.tenTo (count - 1)
        fraction := Numeral.lastDigits (count - 1) digits
        exponent := some first }

end Style

end Decimal

end BytecodeDump
