-- Writing the parts that every field of a dump is made of.
import BytecodeDump.Bytes.Leb128
import BytecodeDump.Bytes.Word
import BytecodeDump.Fault

namespace BytecodeDump

namespace Output

/-- A number of 32 bits in groups of seven bits. -/
def leb32 (n : UInt32) : Bytes := Leb128.encode n.toNat

/-- A mark in the lowest bit, and a number of 32 bits above it. -/
def marked (mark : Bool) (n : UInt32) : Bytes :=
  Leb128.encode (2 * n.toNat + if mark then 1 else 0)

/-- A number of 64 bits as two of 32, the low half first. -/
def word64 (n : UInt64) : Bytes :=
  let (low, high) := Word.halves n
  leb32 low ++ leb32 high

/-- The size of the named part, which has to fit 32 bits. -/
def size (part : String) (n : Nat) : Except Fault Bytes :=
  if n < 0x100000000 then .ok (Leb128.encode n) else .error (.invalidGraph (.tooLong part n))

/-- A tag, which has to fit 32 bits. -/
def tag (n : Nat) : Except Fault Bytes :=
  if n < 0x100000000 then .ok (Leb128.encode n) else .error (.invalidGraph .stringTooLong)

/-- What a step gives for each element in turn, in one piece. -/
def each {α : Type} (write : α → Except Fault Bytes) (items : List α) : Except Fault Bytes :=
  return (← items.mapM write).flatten

end Output

end BytecodeDump
