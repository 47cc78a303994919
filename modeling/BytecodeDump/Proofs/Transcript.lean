-- What is written with a cursor step by step is read back by the matching steps. Each form
-- of entry has its bytes in either byte order: at the end of a buffer a write adds just
-- these, and where they lie ahead the read takes just these and finds what was written.
import BytecodeDump.Proofs.Cursor

namespace BytecodeDump

namespace Cursor

/-! ## Entries -/

/-- A step of writing. -/
inductive Entry where
  /-- Says the byte order of what follows. -/
  | order (endian : Endian)
  | uint8 (value : UInt8)
  | uint16 (value : UInt16)
  | uint32 (value : UInt32)
  | int8 (value : Int8)
  | int16 (value : Int16)
  | int32 (value : Int32)
  /-- The low `width` bytes of a number. -/
  | uint (value : UInt32) (width : Nat)
  /-- The low `width` bytes of a signed number. -/
  | int (value : Int32) (width : Nat)
  | leb32 (value : UInt32)
  | marked (mark : Bool) (value : UInt32)
  | cstring (name : Bytes)
  | raw (bytes : Bytes)
  /-- All bytes of another cursor. -/
  | cursor (other : Cursor)
  deriving DecidableEq

/-- What a step of reading finds. -/
inductive Finding where
  | nothing
  | uint8 (value : UInt8)
  | uint16 (value : UInt16)
  | uint32 (value : UInt32)
  | int8 (value : Int8)
  | int16 (value : Int16)
  | int32 (value : Int32)
  | marked (mark : Bool) (value : UInt32)
  | bytes (bytes : Bytes)
  deriving DecidableEq

namespace Entry

/-- A width is one of 1 to 4 bytes, and no name has a zero in it. -/
def Writable : Entry → Prop
  | uint _ width | int _ width => 1 ≤ width ∧ width ≤ 4
  | cstring name => 0 ∉ name
  | _ => True

instance : DecidablePred Writable
  | uint _ width | int _ width => inferInstanceAs (Decidable (1 ≤ width ∧ width ≤ 4))
  | cstring name => inferInstanceAs (Decidable (0 ∉ name))
  | order _ | uint8 _ | uint16 _ | uint32 _ | int8 _ | int16 _ | int32 _ | leb32 _ | marked _ _
  | raw _ | cursor _ => isTrue trivial

/-- The step of writing. -/
def write : Entry → Cursor → Except Fault Cursor
  | order endian, c => .ok { c with endian }
  | uint8 value, c => .ok (c.writeUInt8 value)
  | uint16 value, c => .ok (c.writeUInt16 value)
  | uint32 value, c => .ok (c.writeUInt32 value)
  | int8 value, c => .ok (c.writeInt8 value)
  | int16 value, c => .ok (c.writeInt16 value)
  | int32 value, c => .ok (c.writeInt32 value)
  | uint value width, c => c.writeUInt value width
  | int value width, c => c.writeInt value width
  | leb32 value, c => .ok (c.writeLeb32 value)
  | marked mark value, c => .ok (c.writeMarked mark value)
  | cstring name, c => .ok (c.writeCString name)
  | raw bytes, c => .ok (c.writeBytes bytes)
  | cursor other, c => .ok (c.writeBytes other.bytes)

/-- The step of reading that matches. Raw bytes are read by their number. -/
def read : Entry → Cursor → Read Finding
  | order endian, c => (.ok .nothing, { c with endian })
  | uint8 _, c => c.readUInt8.map .uint8
  | uint16 _, c => c.readUInt16.map .uint16
  | uint32 _, c => c.readUInt32.map .uint32
  | int8 _, c => c.readInt8.map .int8
  | int16 _, c => c.readInt16.map .int16
  | int32 _, c => c.readInt32.map .int32
  | uint _ width, c => (c.readUInt width).map .uint32
  | int _ width, c => (c.readInt width).map .int32
  | leb32 _, c => c.readLeb32.map .uint32
  | marked _ _, c => c.readMarked.map fun (mark, value) => .marked mark value
  | cstring _, c => c.readCString.map .bytes
  | raw bytes, c => (c.readBytes bytes.length).map .bytes
  | cursor other, c => (c.readBytes other.bytes.length).map .bytes

/-- What has to be found: the value that was written, and of a wider number the low bytes,
with the sign that they have in two's complement where the number is signed. -/
def finding : Entry → Finding
  | order _ => .nothing
  | uint8 value => .uint8 value
  | uint16 value => .uint16 value
  | uint32 value => .uint32 value
  | int8 value => .int8 value
  | int16 value => .int16 value
  | int32 value => .int32 value
  | uint value width => .uint32 (.ofNat (value.toNat % 256 ^ width))
  | int value width => .int32 (.ofInt (value.toInt.bmod (256 ^ width)))
  | leb32 value => .uint32 value
  | marked mark value => .marked mark value
  | cstring name => .bytes name
  | raw bytes => .bytes bytes
  | cursor other => .bytes other.bytes

/-- The byte order after an entry. -/
def orderAfter (before : Endian) : Entry → Endian
  | order endian => endian
  | _ => before

/-- The bytes of an entry in a byte order. -/
def written (endian : Endian) : Entry → Bytes
  | order _ => []
  | uint8 value => [value]
  | uint16 value => endian.write 2 value.toNat
  | uint32 value => endian.write 4 value.toNat
  | int8 value => [value.toUInt8]
  | int16 value => endian.write 2 value.toUInt16.toNat
  | int32 value => endian.write 4 value.toUInt32.toNat
  | uint value width => endian.write width (value.toNat % 256 ^ width)
  | int value width => endian.write width (value.toUInt32.toNat % 256 ^ width)
  | leb32 value => Leb128.encode value.toNat
  | marked mark value => Leb128.encode (2 * value.toNat + if mark then 1 else 0)
  | cstring name => name ++ [0]
  | raw bytes => bytes
  | cursor other => other.bytes

/-! ## One step -/

variable {e : Entry} {c : Cursor} {rest : Bytes}

/-- At the end of the buffer a writable entry is written, and adds its bytes. -/
theorem write_of_end (he : e.Writable) (h : c.pos = c.bytes.length) :
    ∃ c', e.write c = .ok c' ∧ c.Adds c' (e.written c.endian) (e.orderAfter c.endian) := by
  cases e with
  | order endian => exact ⟨_, rfl, (List.append_nil _).symm, h, rfl⟩
  | uint8 value => exact ⟨_, rfl, adds_writeBytes h _⟩
  | uint16 value => exact ⟨_, rfl, adds_writeWord h 2 _⟩
  | uint32 value => exact ⟨_, rfl, adds_writeWord h 4 _⟩
  | int8 value => exact ⟨_, rfl, adds_writeBytes h _⟩
  | int16 value => exact ⟨_, rfl, adds_writeWord h 2 _⟩
  | int32 value => exact ⟨_, rfl, adds_writeWord h 4 _⟩
  | uint value width => exact ⟨_, writeUInt_eq_ok.2 ⟨he, rfl⟩, adds_writeWord h width _⟩
  | int value width => exact ⟨_, writeUInt_eq_ok.2 ⟨he, rfl⟩, adds_writeWord h width _⟩
  | leb32 value => exact ⟨_, rfl, adds_writeLeb h _⟩
  | marked mark value => exact ⟨_, rfl, adds_writeLeb h _⟩
  | cstring name => exact ⟨_, rfl, adds_writeCString h name⟩
  | raw bytes => exact ⟨_, rfl, adds_writeBytes h bytes⟩
  | cursor other => exact ⟨_, rfl, adds_writeBytes h other.bytes⟩

/-- The low bytes of a signed number, as the signed number that they are. -/
theorem bmod_pattern (value : Int32) {width : Nat} (hwidth : width ≤ 4) :
    Int.bmod (value.toUInt32.toNat % 256 ^ width : Nat) (256 ^ width) =
      value.toInt.bmod (256 ^ width) := by
  have hvalue : value.toInt = Int.bmod value.toUInt32.toNat (256 ^ 4) :=
    BitVec.toInt_eq_toNat_bmod _
  rw [hvalue, Int.bmod_bmod_of_dvd (Nat.pow_dvd_pow 256 hwidth), Int.natCast_emod, Int.emod_bmod]

/-- Where its bytes lie ahead, an entry is found by the step that matches it, which goes just
past them. -/
theorem read_of_ahead (he : e.Writable) (h : c.Ahead (e.written c.endian ++ rest)) :
    e.read c = (.ok e.finding,
      { c.past (e.written c.endian) with endian := e.orderAfter c.endian }) := by
  cases e with
  | order endian => rfl
  | uint8 value => exact Read.map_of_ok (readUInt8_of_ahead h) rfl
  | uint16 value => exact Read.map_of_ok (readUInt16_of_ahead h) rfl
  | uint32 value => exact Read.map_of_ok (readUInt32_of_ahead h) rfl
  | int8 value => exact Read.map_of_ok (readInt8_of_ahead h) rfl
  | int16 value => exact Read.map_of_ok (readInt16_of_ahead h) rfl
  | int32 value => exact Read.map_of_ok (readInt32_of_ahead h) rfl
  | uint value width =>
    refine Read.map_of_ok (readUInt_of_ahead he h) ?_
    rw [Nat.mod_mod, finding]
  | int value width =>
    refine Read.map_of_ok (readInt_of_ahead he h) ?_
    rw [bmod_pattern value he.2, finding]
  | leb32 value => exact Read.map_of_ok (readLeb32_of_ahead h) rfl
  | marked mark value => exact Read.map_of_ok (readMarked_of_ahead h) rfl
  | cstring name =>
    have hname : c.Ahead (name ++ 0 :: rest) := by simpa [written] using h
    exact Read.map_of_ok (readCString_of_ahead he hname) rfl
  | raw bytes => exact Read.map_of_ok (readBytes_of_ahead h) rfl
  | cursor other =>
    exact Read.map_of_ok (readBytes_of_ahead (show c.Ahead (other.bytes ++ rest) from h)) rfl

end Entry

/-! ## Steps in a row -/

open Entry

/-- Writes entry after entry. -/
def writeAll (entries : List Entry) (c : Cursor) : Except Fault Cursor :=
  entries.foldlM (fun c e => e.write c) c

/-- Reads entry after entry, up to the first one that fails. -/
def readAll : List Entry → Cursor → Read (List Finding)
  | [], c => (.ok [], c)
  | e :: entries, c =>
    match e.read c with
    | (.ok found, c) => (readAll entries c).map (found :: ·)
    | (.error fault, c) => (.error fault, c)

/-- The bytes of entries in a row. -/
def writtenAll : Endian → List Entry → Bytes
  | _, [] => []
  | endian, e :: entries => e.written endian ++ writtenAll (e.orderAfter endian) entries

variable {entries : List Entry} {c : Cursor}

theorem writeAll_of_end (h : ∀ e ∈ entries, e.Writable) (hend : c.pos = c.bytes.length) :
    ∃ c', writeAll entries c = .ok c' ∧ c'.bytes = c.bytes ++ writtenAll c.endian entries := by
  induction entries generalizing c with
  | nil => exact ⟨c, rfl, (List.append_nil _).symm⟩
  | cons e entries ih =>
    obtain ⟨next, hnext, hadds⟩ := write_of_end (h e List.mem_cons_self) hend
    obtain ⟨last, hlast, hbytes⟩ :=
      ih (fun e' he' => h e' (List.mem_cons_of_mem e he')) hadds.pos_eq
    refine ⟨last, ?_, ?_⟩
    · rw [writeAll, List.foldlM_cons, hnext]
      exact hlast
    · rw [hbytes, hadds.bytes_eq, hadds.endian_eq, writtenAll, List.append_assoc]

theorem readAll_of_ahead {rest : Bytes} (h : ∀ e ∈ entries, e.Writable)
    (hahead : c.Ahead (writtenAll c.endian entries ++ rest)) :
    ∃ c', readAll entries c = (.ok (entries.map finding), c') ∧ c'.Ahead rest := by
  induction entries generalizing c with
  | nil => exact ⟨c, rfl, hahead⟩
  | cons e entries ih =>
    rw [writtenAll, List.append_assoc] at hahead
    have hread := read_of_ahead (h e List.mem_cons_self) hahead
    obtain ⟨last, hlast, hrest⟩ :=
      ih (fun e' he' => h e' (List.mem_cons_of_mem e he'))
        (c := { c.past (e.written c.endian) with endian := e.orderAfter c.endian }) hahead.past
    refine ⟨last, ?_, hrest⟩
    rw [readAll, hread]
    exact Read.map_of_ok hlast rfl

/-! ## The law -/

/-- Writable entries that are written to an empty buffer in a row can be read from its bytes
in a row: each step finds what was written, and after the last one nothing is left. -/
theorem what_is_written_is_read_back (h : ∀ e ∈ entries, e.Writable) :
    ∃ w, writeAll entries empty = .ok w ∧
      ∃ r, readAll entries (ofBytes w.bytes) = (.ok (entries.map finding), r) ∧
        r.remaining = 0 := by
  obtain ⟨w, hwrite, hbytes⟩ := writeAll_of_end (c := empty) h rfl
  have hahead : (ofBytes w.bytes).Ahead (writtenAll .little entries ++ []) := by
    rw [List.append_nil]
    exact hbytes ▸ ahead_ofBytes w.bytes
  obtain ⟨r, hread, hnil⟩ := readAll_of_ahead (c := ofBytes w.bytes) h hahead
  refine ⟨w, hwrite, r, hread, ?_⟩
  have := hnil.length_eq
  rw [List.length_nil] at this
  rw [remaining]
  omega

/-- Entries of every form, at ends of their ranges and in both byte orders. -/
def mixed : List Entry :=
  [.uint16 0xBEEF, .order .big, .uint16 0xBEEF, .uint8 0xFF, .uint32 0xFFFFFFFF, .int8 (-0x80),
    .int16 (-0x8000), .int32 (-0x80000000), .uint 0x1FF 1, .uint 0xFF0A0B0C 3, .int (-2) 2,
    .int 0x80 1, .order .little, .int (-0x800001) 3, .leb32 0x80, .leb32 0xFFFFFFFF,
    .marked true 0xFFFFFFFF, .marked false 0, .cstring [], .cstring [0x61, 0xFF], .raw [], .raw [0],
    .cursor ⟨[1, 2], 1, 7, .big⟩]

theorem mixed_comes_back : mixed.map finding =
      [.uint16 0xBEEF, .nothing, .uint16 0xBEEF, .uint8 0xFF, .uint32 0xFFFFFFFF, .int8 (-0x80),
        .int16 (-0x8000), .int32 (-0x80000000), .uint32 0xFF, .uint32 0x0A0B0C, .int32 (-2),
        .int32 (-0x80), .nothing, .int32 0x7FFFFF, .uint32 0x80, .uint32 0xFFFFFFFF,
        .marked true 0xFFFFFFFF, .marked false 0, .bytes [], .bytes [0x61, 0xFF], .bytes [],
        .bytes [0], .bytes [1, 2]] ∧
    ∃ w, writeAll mixed empty = .ok w ∧
      ∃ r, readAll mixed (ofBytes w.bytes) = (.ok (mixed.map finding), r) ∧ r.remaining = 0 :=
  ⟨by decide +kernel, what_is_written_is_read_back (by decide +kernel)⟩

end Cursor

end BytecodeDump
