-- Whole dumps: three magic bytes, the version, the flags, the chunk name where there
-- is one, the records of the prototypes, and a zero.
import BytecodeDump.Script
import BytecodeDump.Wire.Record

namespace BytecodeDump

namespace Script

/-- The first bytes of every dump. -/
def magic : Bytes := [0x1B, 0x4C, 0x4A]

/-- What the flags say of the records. -/
def layout (s : Script) : Layout := ⟨s.endian, s.hasDebug⟩

/-! ## Reading -/

/-- Reads what follows the version. -/
def readFlags : Reader Script := do
  let flags ← Reader.leb32
  return { flags := ⟨flags⟩, chunkName := [] }

/-- Reads the chunk name of a dump that has one. -/
def readChunkName (debug : Bool) : Reader Bytes := do
  if debug then
    let length ← Reader.leb32
    Reader.bytes length.toNat
  else return []

/-- Reads what follows the magic bytes. -/
def read (table : OpcodeTable) : Reader Script := do
  let version ← Reader.byte
  if version ≠ formatVersion then Reader.fail fun _ => .version version
  else
    let header ← readFlags
    let chunkName ← readChunkName header.hasDebug
    let stack ← Prototype.readAll table header.layout (← Reader.left) []
    let trailing ← Reader.left
    if trailing ≠ 0 then Reader.fail fun _ => .corrupted (.trailing trailing)
    else match stack with
      | [root] => return linkParents { header with chunkName, root }
      | _ => Reader.fail fun _ => .corrupted (.roots stack.length)

/-- The script of a dump. -/
def decode (table : OpcodeTable) (bytes : Bytes) : Except Fault Script :=
  if bytes.take 3 = magic then return (← read table ⟨3, bytes.drop 3⟩).1
  else .error .notADump

/-! ## Writing -/

/-- The chunk name, where there is room for one. -/
def writeChunkName (s : Script) : Except Fault Bytes := do
  if s.hasDebug then
    let length ← Output.size "chunk name" s.chunkName.length
    return length ++ s.chunkName
  else return []

/-- The dump of a script. -/
def encode (table : OpcodeTable) (s : Script) : Except Fault Bytes := do
  if s.version ≠ formatVersion then throw (.version s.version)
  let chunkName ← s.writeChunkName
  let records ← s.root.write table s.layout .root
  return magic ++ [s.version] ++ Output.leb32 s.flags.bits ++ chunkName ++ records ++ [0]

end Script

end BytecodeDump
