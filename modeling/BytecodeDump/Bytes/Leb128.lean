-- Integers in groups of seven bits, lowest group first; every byte but the last
-- has its top bit set. Writing uses the fewest bytes. Reading takes at most ten
-- bytes, and accepts forms that are longer than needed.
import BytecodeDump.Bytes.Endian

namespace BytecodeDump

namespace Leb128

/-- The shortest form of `n`. -/
def encode (n : Nat) : Bytes :=
  if n < 128 then [UInt8.ofNat n]
  else UInt8.ofNat (n % 128 + 128) :: encode (n / 128)
termination_by n
decreasing_by omega

/-- What stands at the start of some bytes. -/
inductive Scan where
  /-- A complete number, the number of its bytes, and the bytes after it. -/
  | done (value width : Nat) (rest : Bytes)
  /-- The bytes end inside the number. -/
  | cut
  /-- The number goes on past the largest number of bytes. -/
  | tooLong
  deriving DecidableEq, Repr

/-- Reads one number of at most `limit` bytes. A byte past the limit is looked for
before the number is called too long. -/
def scan : Nat → Bytes → Scan
  | _, [] => .cut
  | 0, _ :: _ => .tooLong
  | limit + 1, b :: bs =>
    if b.toNat < 128 then .done b.toNat 1 bs
    else match scan limit bs with
      | .done value width rest => .done (b.toNat % 128 + 128 * value) (width + 1) rest
      | other => other

/-- The most bytes that a number may take. -/
def maxLength : Nat := 10

/-- The number as a register of 64 bits keeps it: the tenth byte has room for one bit. -/
def register (value : Nat) : Nat := value % 0x10000000000000000

/-! ## The shortest form, byte by byte -/

theorem encode_of_lt {n : Nat} (h : n < 128) : encode n = [UInt8.ofNat n] := by
  rw [encode, if_pos h]

theorem encode_of_ge {n : Nat} (h : 128 ≤ n) :
    encode n = UInt8.ofNat (n % 128 + 128) :: encode (n / 128) := by
  rw [encode, if_neg (by omega)]

end Leb128

end BytecodeDump
