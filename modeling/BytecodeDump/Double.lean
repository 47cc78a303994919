-- Numbers of double precision as their 64 bits: which number the bits are, and the
-- nearest double to a fraction. Two doubles are the same when their bits are.

namespace BytecodeDump

/-! ## Rounding -/

/-- The whole number nearest to `num / den`; a half goes to the even neighbour. -/
def roundHalfEven (num den : Nat) : Nat :=
  let quotient := num / den
  let twice := 2 * (num % den)
  if twice < den then quotient
  else if den < twice then quotient + 1
  else quotient + quotient % 2

/-- A double-precision number, as the bits of its pattern. -/
structure Double where
  bits : UInt64
  deriving DecidableEq, Repr

namespace Double

/-! ## What the bits say -/

/-- The bit above the low 52. It is one, and not among the bits, unless the exponent is
at its least. -/
def hiddenBit : Nat := 0x10000000000000

/-- The bits of infinity. -/
def infinitySize : Nat := 0x7FF0000000000000

/-- The sign bit. -/
def negative (x : Double) : Bool := x.bits >>> 63 = 1

/-- The eleven bits of the exponent. -/
def exponentField (x : Double) : Nat := (x.bits.toNat >>> 52) % 0x800

/-- The low 52 bits. -/
def fractionField (x : Double) : Nat := x.bits.toNat % hiddenBit

def isNaN (x : Double) : Bool := x.exponentField = 2047 && x.fractionField ≠ 0

def isInfinite (x : Double) : Bool := x.exponentField = 2047 && x.fractionField = 0

def isFinite (x : Double) : Bool := x.exponentField ≠ 2047

/-- Either zero. -/
def isZero (x : Double) : Bool := x.exponentField = 0 && x.fractionField = 0

/-- The significand of a finite double: it is `significand · 2 ^ scale`, up to the sign. -/
def significand (x : Double) : Nat :=
  if x.exponentField = 0 then x.fractionField else hiddenBit + x.fractionField

/-- The power of two of a finite double. -/
def scale (x : Double) : Int := (max x.exponentField 1 : Nat) - 1075

/-- The size of a finite double as a fraction. -/
def magnitude (x : Double) : Nat × Nat :=
  if 0 ≤ x.scale then (x.significand <<< x.scale.toNat, 1)
  else (x.significand, 1 <<< (-x.scale).toNat)

/-- The bits of a size with a sign before them. -/
def signed (negative : Bool) (size : Nat) : Double :=
  ⟨UInt64.ofNat (if negative then 0x8000000000000000 + size else size)⟩

/-- Plus or minus zero. -/
def zero (negative : Bool) : Double := signed negative 0

/-! ## The nearest double -/

/-- The bits of the double nearest to `num / den`: 53 bits from its first one on, but none
below `2 ^ -1074`, a half to the even neighbour, and infinity past the largest. -/
def nearestSize (num den : Nat) : Nat :=
  if num = 0 then 0
  else
    -- `num / den` has its first bit at `2 ^ (guess + 52)` or one below.
    let guess : Int := (num.log2 : Int) - den.log2 - 52
    let scaled (e : Int) : Nat × Nat :=
      if 0 ≤ e then (num, den <<< e.toNat) else (num <<< (-e).toNat, den)
    let reached := let (n, d) := scaled guess; d <<< 52 ≤ n
    let e := max (if reached then guess else guess - 1) (-1074)
    let (n, d) := scaled e
    let kept := roundHalfEven n d
    let size := kept + (e + 1074).toNat * hiddenBit
    min size infinitySize

/-- The double nearest to `num / den`, with a sign. -/
def nearest (negative : Bool) (num den : Nat) : Double := signed negative (nearestSize num den)

/-- The double nearest to an integer. -/
def ofInt (n : Int) : Double := nearest (n < 0) n.natAbs 1

/-! ## Arithmetic on finite doubles, each result rounded once -/

/-- The value of a finite double as a signed fraction. -/
def fraction (x : Double) : Int × Nat :=
  let (num, den) := x.magnitude
  (if x.negative then -(num : Int) else num, den)

def mul (x y : Double) : Double :=
  let (n₁, d₁) := x.magnitude
  let (n₂, d₂) := y.magnitude
  nearest (x.negative != y.negative) (n₁ * n₂) (d₁ * d₂)

/-- The quotient by a double that is not zero. -/
def div (x y : Double) : Double :=
  let (n₁, d₁) := x.magnitude
  let (n₂, d₂) := y.magnitude
  nearest (x.negative != y.negative) (n₁ * d₂) (d₁ * n₂)

/-- The sum; a sum of zero is plus zero. -/
def add (x y : Double) : Double :=
  let (n₁, d₁) := x.fraction
  let (n₂, d₂) := y.fraction
  let sum := n₁ * d₂ + n₂ * d₁
  nearest (sum < 0) sum.natAbs (d₁ * d₂)

/-- The same size with the other sign. -/
def neg (x : Double) : Double := ⟨x.bits ^^^ 0x8000000000000000⟩

end Double

end BytecodeDump
