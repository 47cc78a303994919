-- Upvalues: which variable of the enclosing function a function captures. Packed
-- they are 16 bits: the index in the low 14, then the read-only bit, then the local bit.

namespace BytecodeDump

/-- A captured variable: a local variable of the enclosing function, or one of its
upvalues. -/
structure Upvalue where
  index : UInt16
  /-- The variable is never assigned again. -/
  readonly : Bool
  /-- The index is that of a local variable. -/
  isLocal : Bool
  deriving DecidableEq, Repr

namespace Upvalue

/-- The largest index that can be packed. -/
def maxIndex : UInt16 := 0x3FFF

/-- The bit of a read-only variable. -/
def readonlyBit : UInt16 := 0x4000

/-- The bit of a local variable. -/
def localBit : UInt16 := 0x8000

/-- The upvalue of a packed word. -/
def unpack (raw : UInt16) : Upvalue where
  index := raw &&& maxIndex
  readonly := raw &&& readonlyBit != 0
  isLocal := raw &&& localBit != 0

/-- The packed word of an upvalue. Index bits past the 14 are lost. -/
def pack (u : Upvalue) : UInt16 :=
  (u.index &&& maxIndex)
    ||| (if u.readonly then readonlyBit else 0)
    ||| (if u.isLocal then localBit else 0)

end Upvalue

end BytecodeDump
