-- Words inside words: the two halves of 64 bits, and the signed number that some
-- low bytes spell in two's complement.
import BytecodeDump.Bytes.Endian

namespace BytecodeDump

namespace Word

/-- The low and the high 32 bits of a 64-bit word. -/
def halves (value : UInt64) : UInt32 × UInt32 :=
  (value.toUInt32, (value >>> 32).toUInt32)

/-- The 64-bit word with these low and high halves. -/
def join (low high : UInt32) : UInt64 := low.toUInt64 ||| high.toUInt64 <<< 32

/-- The signed number that the low bits of `value` spell, `bytes` bytes wide. The
width in bits is itself counted in 32 bits, and from 64 bits on nothing is cut off. -/
def signExtend (value : UInt64) (bytes : UInt32) : Int64 :=
  let width := bytes * 8
  if width = 0 then 0
  else if 64 ≤ width then value.toInt64
  else
    let lowMask : UInt64 := (1 <<< width.toUInt64) - 1
    let low := value &&& lowMask
    let signBit : UInt64 := 1 <<< (width - 1).toUInt64
    if low &&& signBit ≠ 0 then (low ||| ~~~lowMask).toInt64 else low.toInt64

end Word

end BytecodeDump
