-- Durations for people: milliseconds below a second, seconds below a minute, and
-- minutes with seconds from there on. Seconds and minutes are counted in doubles.
import BytecodeDump.Decimal.Fixed

namespace BytecodeDump

/-- A length of time. -/
structure Duration where
  seconds : UInt64
  /-- Below one billion. -/
  nanoseconds : UInt32
  deriving DecidableEq, Repr

namespace Duration

/-- The whole milliseconds. -/
def milliseconds (d : Duration) : Nat := d.seconds.toNat * 1000 + d.nanoseconds.toNat / 1000000

/-- The seconds as a double: the whole ones and the fraction are rounded, and then
their sum. -/
def toDouble (d : Duration) : Double :=
  let whole := Double.ofInt d.seconds.toNat
  let part := Double.nearest false d.nanoseconds.toNat 1000000000
  whole.add part

/-- The whole minutes of a number of seconds, by a rounded quotient. -/
def wholeMinutes (seconds : Double) : Nat :=
  let (num, den) := (seconds.div (.ofInt 60)).magnitude
  num / den

/-- The duration as a person reads it. -/
def text (d : Duration) : String :=
  if d.milliseconds < 1000 then toString d.milliseconds ++ " ms"
  else
    let seconds := d.toDouble
    let (num, den) := seconds.magnitude
    if num < 60 * den then Decimal.fixedDouble 3 seconds ++ " s"
    else
      let minutes := Double.ofInt (wholeMinutes seconds)
      let rest := seconds.add (minutes.mul (.ofInt 60)).neg
      Decimal.fixedDouble 0 minutes ++ " min " ++ signed rest ++ " s"
where
  /-- The seconds past the whole minutes; rounding may leave them just below zero. -/
  signed (rest : Double) : String :=
    (if rest.negative then "-" else "") ++ Decimal.fixedDouble 1 rest

end Duration

end BytecodeDump
