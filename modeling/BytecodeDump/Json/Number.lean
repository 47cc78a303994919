-- Numbers in JSON text as integers and as doubles. A double is not the nearest one to
-- its digits: as many digits as fit 64 bits are kept, rounded once, and then scaled by
-- a power of ten that is itself rounded.
import BytecodeDump.Double
import BytecodeDump.Json.Value

namespace BytecodeDump

namespace Numeral

/-- The integer of a numeral without point or exponent. Minus zero is none. -/
def toInt? (n : Numeral) : Option Int :=
  if n.fraction.isEmpty && n.exponent.isNone then
    if n.negative then if n.whole = 0 then none else some (-n.whole)
    else some n.whole
  else none

/-- Adds digits to a number as long as it fits 64 bits; the others are left. -/
def gather : Nat → List Nat → Nat × List Nat
  | n, [] => (n, [])
  | n, d :: ds => if 10 * n + d < 0x10000000000000000 then gather (10 * n + d) ds else (n, d :: ds)

/-- The decimal digits of a number. -/
def digitsOf (n : Nat) : List Nat := (Nat.toDigits 10 n).map fun c => c.toNat - '0'.toNat

/-- The largest power of ten that is a double. -/
def maxPower : Nat := 308

/-- A power of ten, rounded. -/
def powerOfTen (n : Nat) : Double := .nearest false (tenTo n) 1

/-- A double divided by `10 ^ n`, by at most the largest power at a time. -/
def shrink (x : Double) (n : Nat) : Double :=
  if n ≤ maxPower then x.div (powerOfTen n)
  else if x.isZero then x
  else shrink (x.div (powerOfTen maxPower)) (n - maxPower)
termination_by n
decreasing_by simp only [maxPower] at *; omega

/-- A double multiplied by a power of ten; there is none past the largest double. -/
def scaleBy? (x : Double) (power : Int) : Option Double :=
  if power < 0 then some (shrink x (-power).toNat)
  else if power ≤ maxPower then
    let scaled := x.mul (powerOfTen power.toNat)
    if scaled.isFinite then some scaled else none
  else if x.isZero then some x
  else none

/-- The largest exponent that is counted. -/
def maxExponent : Nat := 0x7FFFFFFF

/-- The double that a numeral is read as; there is none for a numeral that is too large. -/
def toDouble? (n : Numeral) : Option Double := do
  let (kept, dropped) := gather 0 (digitsOf n.whole)
  let (kept, unread) := gather kept n.fraction
  let read := n.fraction.length - unread.length
  let written := n.exponent.getD 0
  let x ←
    if maxExponent < written.natAbs then
      if kept = 0 ∨ written < 0 then some (Double.zero false) else none
    else scaleBy? (.nearest false kept 1) (dropped.length - read + written)
  return if n.negative then x.neg else x

end Numeral

end BytecodeDump
