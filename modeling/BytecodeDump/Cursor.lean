-- A buffer of bytes with one place for reading and writing. A write in the middle
-- replaces bytes, and one that goes past the end makes the buffer longer. What was
-- reserved grows by half, or as far as the write needs.
import BytecodeDump.Bytes.Leb128
import BytecodeDump.Bytes.Word
import BytecodeDump.Fault

namespace BytecodeDump

/-- The bytes, the place, how many bytes are reserved, and the byte order. -/
structure Cursor where
  bytes : Bytes
  pos : Nat
  capacity : Nat
  endian : Endian
  deriving DecidableEq, Repr

namespace Cursor

/-! ## New cursors -/

/-- An empty buffer with sixteen bytes reserved. -/
def empty : Cursor := ⟨[], 0, 16, .little⟩

/-- A buffer of just these bytes, read from the first one on. -/
def ofBytes (bytes : Bytes) : Cursor := ⟨bytes, 0, bytes.length, .little⟩

/-! ## Moving -/

/-- Goes to a place, at most to the end. -/
def seek (c : Cursor) (pos : Nat) : Cursor := { c with pos := min pos c.bytes.length }

/-- Goes forward or back, at most to either end. -/
def skip (c : Cursor) (delta : Int) : Cursor := c.seek (c.pos + delta).toNat

/-- How many bytes lie between the place and the end. -/
def remaining (c : Cursor) : Nat := c.bytes.length - c.pos

/-- Takes all bytes out; what is reserved stays so. -/
def clear (c : Cursor) : Cursor := { c with bytes := [], pos := 0 }

/-! ## Reading

A read gives the cursor after it, also when it fails: only a number in groups of seven
bits moves the place before it fails. -/

/-- What a read finds, and the cursor after it. -/
abbrev Read (α : Type) := Except Fault α × Cursor

/-- The fault of a read of `needed` bytes at `offset`. -/
def short (c : Cursor) (offset needed : Nat) : Fault := .outOfRange offset needed c.bytes.length

def readBytes (c : Cursor) (count : Nat) : Read Bytes :=
  if c.pos + count ≤ c.bytes.length then
    (.ok ((c.bytes.drop c.pos).take count), { c with pos := c.pos + count })
  else (.error (c.short c.pos count), c)

/-- The bytes up to the next zero, which is passed too. -/
def readCString (c : Cursor) : Read Bytes :=
  let tail := c.bytes.drop c.pos
  let name := tail.takeWhile (· ≠ 0)
  if name.length < tail.length then (.ok name, { c with pos := c.pos + name.length + 1 })
  else (.error (c.short c.bytes.length 1), c)

/-- The byte at the place, which is not passed. -/
def peek (c : Cursor) : Except Fault UInt8 :=
  match c.bytes[c.pos]? with
  | some b => .ok b
  | none => .error (c.short c.pos 1)

/-- What a read finds, as another value. -/
def Read.map {α β : Type} (f : α → β) (r : Read α) : Read β := (r.1.map f, r.2)

/-- Fails unless the width is one of 1 to 4 bytes. -/
def checkWidth (width : Nat) : Except Fault Unit :=
  if 1 ≤ width ∧ width ≤ 4 then .ok () else .error (.width width)

/-- A number of `width` bytes. -/
def readUInt (c : Cursor) (width : Nat) : Read UInt32 :=
  match checkWidth width with
  | .error fault => (.error fault, c)
  | .ok () => (c.readBytes width).map fun bytes => .ofNat (c.endian.read bytes)

/-- A signed number of `width` bytes, in two's complement. -/
def readInt (c : Cursor) (width : Nat) : Read Int32 :=
  match checkWidth width with
  | .error fault => (.error fault, c)
  | .ok () => (c.readBytes width).map fun bytes =>
    Int32.ofInt (Int.bmod (c.endian.read bytes) (Endian.span width))

def readUInt8 (c : Cursor) : Read UInt8 := (c.readBytes 1).map (·.headD 0)

def readUInt16 (c : Cursor) : Read UInt16 := (c.readUInt 2).map (·.toUInt16)

def readUInt32 (c : Cursor) : Read UInt32 := c.readUInt 4

def readInt8 (c : Cursor) : Read Int8 := (c.readInt 1).map (·.toInt8)

def readInt16 (c : Cursor) : Read Int16 := (c.readInt 2).map (·.toInt16)

def readInt32 (c : Cursor) : Read Int32 := c.readInt 4

/-- A number in groups of seven bits, as 64 bits keep it. -/
def readLeb (c : Cursor) : Read Nat :=
  match Leb128.scan Leb128.maxLength (c.bytes.drop c.pos) with
  | .done value width _ => (.ok (Leb128.register value), { c with pos := c.pos + width })
  | .cut => (.error (c.short c.bytes.length 1), { c with pos := c.bytes.length })
  | .tooLong =>
    (.error (.corrupted (.numberTooLong c.pos)), { c with pos := c.pos + Leb128.maxLength + 1 })

/-- A number in groups of seven bits that has to fit 32 bits. -/
def readLeb32 (c : Cursor) : Read UInt32 :=
  let (read, after) := c.readLeb
  (read.bind fun value =>
    if value < 0x100000000 then .ok (.ofNat value)
    else .error (.corrupted (.numberTooLarge value c.pos)), after)

/-- A mark in the lowest bit, and above it a number that has to fit 32 bits. -/
def readMarked (c : Cursor) : Read (Bool × UInt32) :=
  let (read, after) := c.readLeb
  (read.bind fun value =>
    if value / 2 < 0x100000000 then .ok (value % 2 = 1, .ofNat (value / 2))
    else .error (.corrupted (.markedTooLarge c.pos)), after)

/-! ## Writing -/

/-- What is reserved after a write that ends at `stop`. -/
def grown (c : Cursor) (stop : Nat) : Nat :=
  if c.capacity < stop then max (c.capacity + c.capacity / 2) stop else c.capacity

/-- Puts bytes at the place, and goes behind them. -/
def writeBytes (c : Cursor) (bytes : Bytes) : Cursor :=
  let stop := c.pos + bytes.length
  { c with
    bytes := c.bytes.take c.pos ++ bytes ++ c.bytes.drop stop
    pos := stop
    capacity := c.grown stop }

/-- A number in one write of the whole width. -/
def writeWord (c : Cursor) (width n : Nat) : Cursor := c.writeBytes (c.endian.write width n)

/-- Puts bytes and a zero after them. -/
def writeCString (c : Cursor) (bytes : Bytes) : Cursor := (c.writeBytes bytes).writeBytes [0]

/-- The low `width` bytes of a number. -/
def writeUInt (c : Cursor) (value : UInt32) (width : Nat) : Except Fault Cursor :=
  (checkWidth width).map fun _ => c.writeWord width (value.toNat % Endian.span width)

/-- The low `width` bytes of a signed number, in two's complement. -/
def writeInt (c : Cursor) (value : Int32) (width : Nat) : Except Fault Cursor :=
  c.writeUInt value.toUInt32 width

def writeUInt8 (c : Cursor) (value : UInt8) : Cursor := c.writeBytes [value]

def writeUInt16 (c : Cursor) (value : UInt16) : Cursor := c.writeWord 2 value.toNat

def writeUInt32 (c : Cursor) (value : UInt32) : Cursor := c.writeWord 4 value.toNat

def writeInt8 (c : Cursor) (value : Int8) : Cursor := c.writeUInt8 value.toUInt8

def writeInt16 (c : Cursor) (value : Int16) : Cursor := c.writeUInt16 value.toUInt16

def writeInt32 (c : Cursor) (value : Int32) : Cursor := c.writeUInt32 value.toUInt32

/-- A number in groups of seven bits, byte by byte. -/
def writeLeb (c : Cursor) (n : Nat) : Cursor :=
  (Leb128.encode n).foldl (fun c b => c.writeBytes [b]) c

def writeLeb32 (c : Cursor) (value : UInt32) : Cursor := c.writeLeb value.toNat

/-- A mark in the lowest bit, and a number above it. -/
def writeMarked (c : Cursor) (mark : Bool) (value : UInt32) : Cursor :=
  c.writeLeb (2 * value.toNat + if mark then 1 else 0)

end Cursor

end BytecodeDump
