-- Reading bytes from front to back. A feed knows how far it has come and what is
-- left, so it can say where a read failed and how long the whole string of bytes is.
import BytecodeDump.Bytes.Leb128
import BytecodeDump.Bytes.Word
import BytecodeDump.Fault

namespace BytecodeDump

/-- The bytes that are left, and how many came before them. -/
structure Feed where
  pos : Nat
  rest : Bytes
  deriving DecidableEq, Repr

namespace Feed

/-- The feed at the start of some bytes. -/
def ofBytes (bytes : Bytes) : Feed := ⟨0, bytes⟩

/-- The length of all bytes, those before the feed included. -/
def size (f : Feed) : Nat := f.pos + f.rest.length

end Feed

/-- A step that takes some bytes off the front of a feed, or finds a fault. -/
abbrev Reader := StateT Feed (Except Fault)

namespace Reader

/-- Fails with a fault that may name the place. -/
def fail {α : Type} (fault : Feed → Fault) : Reader α := fun f => .error (fault f)

/-- Fails because `needed` bytes are not there. -/
def short {α : Type} (needed : Nat) : Reader α := fail fun f => .outOfRange f.pos needed f.size

/-- How many bytes came before. -/
def pos : Reader Nat := fun f => .ok (f.pos, f)

/-- How many bytes are left. -/
def left : Reader Nat := fun f => .ok (f.rest.length, f)

/-- The next byte, which stays. -/
def peek : Reader UInt8 := fun f =>
  match f.rest with
  | [] => short 1 f
  | b :: _ => .ok (b, f)

/-- The next byte. -/
def byte : Reader UInt8 := fun f =>
  match f.rest with
  | [] => short 1 f
  | b :: bs => .ok (b, ⟨f.pos + 1, bs⟩)

/-- The next `count` bytes. -/
def bytes (count : Nat) : Reader Bytes := fun f =>
  let taken := f.rest.take count
  if taken.length = count then .ok (taken, ⟨f.pos + count, f.rest.drop count⟩) else short count f

/-- An integer of `width` bytes. -/
def fixed (e : Endian) (width : Nat) : Reader Nat := do return e.read (← bytes width)

/-- A number in groups of seven bits, as 64 bits keep it. -/
def leb : Reader Nat := fun f =>
  match Leb128.scan Leb128.maxLength f.rest with
  | .done value width rest => .ok (Leb128.register value, ⟨f.pos + width, rest⟩)
  | .cut => .error (.outOfRange f.size 1 f.size)
  | .tooLong => .error (.corrupted (.numberTooLong f.pos))

/-- A number in groups of seven bits that has to fit 32 bits. -/
def leb32 : Reader UInt32 := do
  let start ← pos
  let value ← leb
  if value < 0x100000000 then return .ofNat value
  else fail fun _ => .corrupted (.numberTooLarge value start)

/-- A mark in the lowest bit, and above it a number that has to fit 32 bits. -/
def marked : Reader (Bool × UInt32) := do
  let start ← pos
  let value ← leb
  if value / 2 < 0x100000000 then return (value % 2 = 1, .ofNat (value / 2))
  else fail fun _ => .corrupted (.markedTooLarge start)

/-- Two numbers of 32 bits that make one of 64, the low half first. -/
def word64 : Reader UInt64 := do
  let low ← leb32
  let high ← leb32
  return Word.join low high

/-- The bytes up to the next zero, which is taken off too. -/
def cstring : Reader Bytes := fun f =>
  let name := f.rest.takeWhile (· ≠ 0)
  match f.rest.dropWhile (· ≠ 0) with
  | [] => .error (.outOfRange f.size 1 f.size)
  | _ :: rest => .ok (name, ⟨f.pos + name.length + 1, rest⟩)

/-- The same step `count` times. -/
def times {α : Type} (step : Reader α) : Nat → Reader (List α)
  | 0 => return []
  | count + 1 => do
    let first ← step
    let others ← times step count
    return first :: others

end Reader

end BytecodeDump
