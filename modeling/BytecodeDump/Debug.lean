-- Debug blocks: the source lines of the instructions, the names of the upvalues, and
-- the local variables with the instructions in which they live.
import BytecodeDump.Bytes.Endian

namespace BytecodeDump

/-- The variables that the compiler makes for a loop, each with a code of one byte. -/
inductive LoopVariable where
  | index | limit | step | generator | state | control
  deriving DecidableEq, Repr

namespace LoopVariable

def code : LoopVariable → UInt8
  | index => 1
  | limit => 2
  | step => 3
  | generator => 4
  | state => 5
  | control => 6

def ofCode? (code : UInt8) : Option LoopVariable :=
  match code.toNat with
  | 1 => some index
  | 2 => some limit
  | 3 => some step
  | 4 => some generator
  | 5 => some state
  | 6 => some control
  | _ => none

/-- The name that is shown for the variable. -/
def name : LoopVariable → String
  | index => "(for index)"
  | limit => "(for limit)"
  | step => "(for step)"
  | generator => "(for generator)"
  | state => "(for state)"
  | control => "(for control)"

end LoopVariable

/-- The name of a local variable. -/
inductive LocalName where
  /-- A name of the source. Its first byte is 7 or more, so no code looks like it. -/
  | named (bytes : Bytes)
  | loop (v : LoopVariable)
  deriving DecidableEq

namespace LocalName

/-- The bytes that are shown for the name. -/
def bytes : LocalName → Bytes
  | named bytes => bytes
  | loop v => v.name.toUTF8.toList

end LocalName

/-- A local variable, and the instructions in which it lives. -/
structure LocalVariable where
  name : LocalName
  /-- The first instruction of the scope. -/
  first : UInt32
  /-- How many instructions the scope covers. -/
  count : UInt32
  deriving DecidableEq

namespace LocalVariable

/-- The instruction after the scope, but never past the largest number of 32 bits. -/
def scopeEnd (v : LocalVariable) : UInt32 :=
  UInt32.ofNat (min (v.first.toNat + v.count.toNat) 0xFFFFFFFF)

end LocalVariable

/-- What a prototype knows of its source. -/
structure DebugInfo where
  firstLine : UInt32 := 0
  lineCount : UInt32 := 0
  /-- For each instruction, how far its line is from the first one. -/
  lines : List UInt32 := []
  /-- For each upvalue, its name. -/
  upvalueNames : List Bytes := []
  /-- The local variables, in the order in which their scopes begin. -/
  locals : List LocalVariable := []
  deriving DecidableEq

namespace DebugInfo

/-- How many bytes a line takes: as few of 1, 2 and 4 as the number of lines needs. -/
def lineWidth (info : DebugInfo) : Nat :=
  if info.lineCount < 256 then 1 else if info.lineCount < 65536 then 2 else 4

/-- The source line of an instruction, counted in 32 bits. -/
def sourceLine? (info : DebugInfo) (pc : Nat) : Option UInt32 :=
  info.lines[pc]?.map (info.firstLine + ·)

/-- The name of an upvalue. -/
def upvalueName? (info : DebugInfo) (index : Nat) : Option Bytes := info.upvalueNames[index]?

/-- The variable number `slot` among those that live at an instruction. The search
ends at the first scope that begins later. -/
def liveVariable? (pc : UInt32) : Nat → List LocalVariable → Option LocalVariable
  | _, [] => none
  | slot, v :: rest =>
    if pc < v.first then none
    else if pc < v.scopeEnd then
      match slot with
      | 0 => some v
      | slot + 1 => liveVariable? pc slot rest
    else liveVariable? pc slot rest

/-- The name of the variable number `slot` among those that live at an instruction. -/
def variableName? (info : DebugInfo) (pc : UInt32) (slot : Nat) : Option Bytes :=
  (liveVariable? pc slot info.locals).map (·.name.bytes)

end DebugInfo

end BytecodeDump
