-- A whole dump: the header and the tree of prototypes.
import BytecodeDump.Prototype

namespace BytecodeDump

/-- A dump, taken apart. -/
structure Script where
  version : UInt8 := 2
  flags : ScriptFlags := ⟨ScriptFlags.stripDebug⟩
  /-- Where the source came from; written only together with the debug blocks. -/
  chunkName : Bytes := [0x3F]
  root : Prototype := .empty
  deriving DecidableEq

namespace Script

/-- The version of the format. -/
def formatVersion : UInt8 := 2

/-- A script with nothing in it: stripped, with a question mark for its name. -/
def empty : Script := {}

/-- Whether the dump has a chunk name and may have debug blocks. -/
def hasDebug (s : Script) : Bool := !s.flags.has ScriptFlags.stripDebug

/-- The byte order of the dump. -/
def endian (s : Script) : Endian := if s.flags.has ScriptFlags.bigEndian then .big else .little

/-- Takes out the chunk name and every debug block, and says so in the flags. -/
def stripDebug (s : Script) : Script :=
  { s with
    flags := s.flags.insert ScriptFlags.stripDebug
    chunkName := []
    root := s.root.strip }

/-- The prototype at a path. -/
def prototype? (s : Script) (path : Path) : Option Prototype := s.root.at? path.indices

/-- The script with the prototype at a path changed. -/
def modify (s : Script) (path : Path) (f : Prototype → Prototype) : Script :=
  { s with root := s.root.modifyAt f path.indices }

/-- Every prototype with its path, a prototype before its children. -/
def walk (s : Script) : List (Path × Prototype) := s.root.walk .root

/-- Notes in every prototype the path of its parent. -/
def linkParents (s : Script) : Script := { s with root := s.root.link none .root }

end Script

end BytecodeDump
