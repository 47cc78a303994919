-- Bytes shown as text: UTF-8, in which every part that cannot begin a character
-- becomes one replacement character. A broken part is as long as it could still
-- have become a character.
import BytecodeDump.Bytes.Endian

namespace BytecodeDump

namespace Utf8

/-- What stands for bytes that spell no character. -/
def replacement : Char := '\uFFFD'

/-- Where the reader stands between two bytes. -/
inductive State where
  /-- Between characters. -/
  | start
  /-- Inside a character: the bits so far, the bytes that it still needs, and the
  range in which the next of them has to lie. -/
  | inside (bits needed : Nat) (low high : UInt8)
  deriving DecidableEq, Repr

/-- A first byte gives a character of its own, opens a longer one, or is broken. -/
def first (b : UInt8) : Option Char × State :=
  let n := b.toNat
  if n < 0x80 then (some (Char.ofNat n), .start)
  else if n < 0xC2 then (some replacement, .start)
  else if n < 0xE0 then (none, .inside (n - 0xC0) 1 0x80 0xBF)
  else if n = 0xE0 then (none, .inside 0 2 0xA0 0xBF)
  else if n = 0xED then (none, .inside 0xD 2 0x80 0x9F)
  else if n < 0xF0 then (none, .inside (n - 0xE0) 2 0x80 0xBF)
  else if n = 0xF0 then (none, .inside 0 3 0x90 0xBF)
  else if n < 0xF4 then (none, .inside (n - 0xF0) 3 0x80 0xBF)
  else if n = 0xF4 then (none, .inside 4 3 0x80 0x8F)
  else (some replacement, .start)

/-- The characters of the bytes, from a state on. -/
def decodeFrom : State → Bytes → List Char
  | .start, [] => []
  | .inside .., [] => [replacement]
  | .start, b :: bs =>
    let (shown, state) := first b
    shown.toList ++ decodeFrom state bs
  | .inside bits needed low high, b :: bs =>
    if low ≤ b ∧ b ≤ high then
      let bits := bits * 64 + b.toNat % 64
      if needed ≤ 1 then Char.ofNat bits :: decodeFrom .start bs
      else decodeFrom (.inside bits (needed - 1) 0x80 0xBF) bs
    else
      let (shown, state) := first b
      replacement :: (shown.toList ++ decodeFrom state bs)

/-- The text of the bytes. -/
def decode (bs : Bytes) : String := String.ofList (decodeFrom .start bs)

/-- The bytes of a text. -/
def encode (text : String) : Bytes := text.toUTF8.toList

end Utf8

end BytecodeDump
