-- What a script holds, counted over its whole tree.
import BytecodeDump.Script

namespace BytecodeDump

/-- The counts of a script. -/
structure Summary where
  version : UInt8
  flags : UInt32
  /-- The chunk name as text. -/
  chunkName : String
  stripped : Bool
  prototypes : Nat := 0
  /-- How deep the deepest prototype is nested. -/
  maxDepth : Nat := 0
  instructions : Nat := 0
  constants : Nat := 0
  numbers : Nat := 0
  upvalues : Nat := 0
  /-- The strings among the constants. -/
  strings : Nat := 0
  /-- The tables among the constants. -/
  tables : Nat := 0
  deriving DecidableEq, Repr

namespace Summary

/-- How many constants are of one kind. -/
def countKind (kind : ConstantKind) (body : Body) : Nat := body.constants.countP (·.kind = kind)

/-- The summary with one more prototype, found at a path. -/
def count (s : Summary) (path : Path) (body : Body) : Summary :=
  { s with
    prototypes := s.prototypes + 1
    maxDepth := max s.maxDepth path.depth
    instructions := s.instructions + body.code.length
    constants := s.constants + body.constants.length
    numbers := s.numbers + body.numbers.length
    upvalues := s.upvalues + body.upvalues.length
    strings := s.strings + countKind .string body
    tables := s.tables + countKind .table body }

/-- The counts of a script. -/
def ofScript (script : Script) : Summary :=
  script.walk.foldl (fun s (path, p) => s.count path p.body) {
    version := script.version
    flags := script.flags.bits
    chunkName := Utf8.decode script.chunkName
    stripped := !script.hasDebug }

/-! ## As text -/

/-- One line for each count; a script without a chunk name has no line for it. -/
def lines (s : Summary) : List String :=
  ["version      : " ++ toString s.version,
    "flags        : 0x" ++ Text.hex s.flags.toNat ++ (if s.stripped then " (stripped)" else "")]
  ++ (if s.chunkName.isEmpty then [] else ["chunk        : " ++ s.chunkName])
  ++ ["prototypes   : " ++ toString s.prototypes ++ " (depth " ++ toString s.maxDepth ++ ")",
    "instructions : " ++ toString s.instructions,
    "constants    : " ++ toString s.constants ++ " (" ++ toString s.strings ++ " strings, "
      ++ toString s.tables ++ " tables)",
    "numbers      : " ++ toString s.numbers,
    "upvalues     : " ++ toString s.upvalues]

/-- The lines as one text. -/
def text (s : Summary) : String := "\n".intercalate s.lines

end Summary

end BytecodeDump
