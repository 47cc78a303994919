-- Prototypes in a dump. A record is the body of one prototype after its length. The
-- children of a prototype are the records before it that no other record took.
import BytecodeDump.Prototype
import BytecodeDump.Wire.Constant
import BytecodeDump.Wire.Debug

namespace BytecodeDump

/-- What the header of a dump says of its records. -/
structure Layout where
  endian : Endian
  /-- The records have room for debug blocks. -/
  debug : Bool
  deriving DecidableEq, Repr

namespace Body

/-! ## Reading -/

/-- What a record says of its debug block: its length, the first line, and the number
of lines. No length stands for no block. -/
structure DebugHeader where
  length : Nat
  firstLine : UInt32
  lineCount : UInt32
  deriving DecidableEq, Repr

def readDebugHeader (layout : Layout) : Reader (Option DebugHeader) := do
  if layout.debug then
    let length ← Reader.leb32
    if length = 0 then return none
    else
      let firstLine ← Reader.leb32
      let lineCount ← Reader.leb32
      return some ⟨length.toNat, firstLine, lineCount⟩
  else return none

/-- Reads a block and looks whether it is as long as its header says. -/
def readDebug (e : Endian) (header : DebugHeader) (instructions upvalues : Nat) :
    Reader DebugInfo := do
  let start ← Reader.pos
  let info ← DebugInfo.read e header.firstLine header.lineCount instructions upvalues
  let used := (← Reader.pos) - start
  if used = header.length then return info
  else Reader.fail fun _ => .corrupted (.debugLength start header.length used)

/-- Reads the body of a prototype, where `pending` prototypes are left to be its
children. Constants and numbers stand last to first. -/
def read (table : OpcodeTable) (layout : Layout) (pending : Nat) : Reader Body := do
  let flags ← Reader.byte
  let args ← Reader.byte
  let maxSlot ← Reader.byte
  let upvalueCount ← Reader.byte
  let constantCount ← Reader.leb32
  let numberCount ← Reader.leb32
  let instructionCount ← Reader.leb32
  let header ← readDebugHeader layout
  let words ← Reader.times (Reader.fixed layout.endian 4) instructionCount.toNat
  let packed ← Reader.times (Reader.fixed layout.endian 2) upvalueCount.toNat
  let constants ← Constant.readAll pending 0 constantCount.toNat
  let numbers ← Reader.times NumberConstant.read numberCount.toNat
  let debug ← header.mapM fun header =>
    readDebug layout.endian header instructionCount.toNat upvalueCount.toNat
  return {
    flags := ⟨flags⟩, args, maxSlot, debug
    code := words.map fun word => Instruction.ofWord table (.ofNat word)
    upvalues := packed.map fun raw => Upvalue.unpack (.ofNat raw)
    constants := constants.reverse
    numbers := numbers.reverse }

/-- Reads a record: a length, and a body that is as long. -/
def readRecord (table : OpcodeTable) (layout : Layout) (pending : Nat) : Reader Body := do
  let length ← Reader.leb32
  let start ← Reader.pos
  if (← Reader.left) < length.toNat then Reader.short length.toNat
  else
    let body ← read table layout pending
    let used := (← Reader.pos) - start
    if used = length.toNat then return body
    else Reader.fail fun _ => .corrupted (.prototypeLength start length.toNat used)

/-! ## Writing -/

/-- The number of upvalues, in one byte. -/
def writeUpvalueCount (path : Path) (b : Body) : Except Fault Bytes :=
  if b.upvalues.length < 256 then .ok [UInt8.ofNat b.upvalues.length]
  else .error (.invalidGraph (.at path (.upvalueCount b.upvalues.length)))

/-- The debug block that goes into the dump, if there is one. -/
def writeDebug (layout : Layout) (path : Path) (b : Body) :
    Except Fault (Option (DebugInfo × Bytes)) :=
  match layout.debug, b.debug with
  | true, some info => do
    return some (info, ← info.write layout.endian path b.code.length b.upvalues.length)
  | _, _ => .ok none

/-- The header of the debug block, where there is room for one. -/
def writeDebugHeader (layout : Layout) : Option (DebugInfo × Bytes) → Except Fault Bytes
  | some (info, block) => do
    let length ← Output.size "debug block" block.length
    return length ++ Output.leb32 info.firstLine ++ Output.leb32 info.lineCount
  | none => .ok (if layout.debug then [0] else [])

/-- An instruction, if it has the operands that the table gives its opcode. -/
def writeInstruction (table : OpcodeTable) (e : Endian) (path : Path) (pc : Nat)
    (i : Instruction) : Except Fault Bytes :=
  let declared := table.slots i.opcode
  if i.slots = declared then .ok (e.write 4 i.toWord.toNat)
  else .error (.invalidGraph (.at path (.operands pc i.opcode i.slots declared)))

/-- An upvalue, if its index can be packed. -/
def writeUpvalue (e : Endian) (path : Path) (position : Nat) (u : Upvalue) :
    Except Fault Bytes :=
  if u.index ≤ Upvalue.maxIndex then .ok (e.write 2 u.pack.toNat)
  else .error (.invalidGraph (.at path (.upvalueIndex position u.index)))

/-- The body of a prototype. -/
def write (table : OpcodeTable) (layout : Layout) (path : Path) (b : Body) :
    Except Fault Bytes := do
  let upvalueCount ← writeUpvalueCount path b
  let constantCount ← Output.size "constant count" b.constants.length
  let numberCount ← Output.size "number count" b.numbers.length
  let instructionCount ← Output.size "instruction count" b.code.length
  let debug ← writeDebug layout path b
  let debugHeader ← writeDebugHeader layout debug
  let code ← Output.each (fun (i, pc) => writeInstruction table layout.endian path pc i)
    b.code.zipIdx
  let upvalues ← Output.each (fun (u, position) => writeUpvalue layout.endian path position u)
    b.upvalues.zipIdx
  let constants ← Output.each Constant.write b.constants.reverse
  let numbers := b.numbers.reverse.flatMap NumberConstant.write
  let block := debug.elim [] (·.2)
  return [b.flags.bits, b.args, b.maxSlot] ++ upvalueCount ++ constantCount ++ numberCount
    ++ instructionCount ++ debugHeader ++ code ++ upvalues ++ constants ++ numbers ++ block

/-- The record of a prototype: the length of its body, and the body. -/
def writeRecord (table : OpcodeTable) (layout : Layout) (path : Path) (b : Body) :
    Except Fault Bytes := do
  let bytes ← b.write table layout path
  let length ← Output.size "prototype" bytes.length
  return length ++ bytes

end Body

/-! ## Trees from records -/

namespace Prototype

/-- Puts a body on the stack of finished prototypes: it takes its children off the top
first. -/
def finish (stack : List Prototype) (body : Body) : List Prototype :=
  let count := body.childIndices.length
  node body none (stack.take count) :: stack.drop count

/-- Reads records up to a zero onto the stack. Each takes bytes, so with as many steps
as there are bytes the steps never run out before the bytes do. -/
def readAll (table : OpcodeTable) (layout : Layout) :
    Nat → List Prototype → Reader (List Prototype)
  | 0, _ => Reader.short 1
  | steps + 1, stack => do
    if (← Reader.peek) = 0 then
      let _ ← Reader.byte
      return stack
    else
      let body ← Body.readRecord table layout stack.length
      readAll table layout steps (finish stack body)

/-! ## Records from trees -/

/-- The children in the order in which they are written: that of the constants that
name them. Every child has to be named once. -/
def childOrder (path : Path) (body : Body) (children : Nat) : Except Fault (List Nat) :=
  let fault (cause : GraphCause) : Except Fault (List Nat) :=
    .error (.invalidGraph (.at path cause))
  let rec go (seen : List Nat) : List Nat → Except Fault (List Nat)
    | [] =>
      match (List.range children).find? (! seen.contains ·) with
      | some index => fault (.childUnnamed index)
      | none => .ok []
    | index :: rest =>
      if children ≤ index then fault (.childMissing index children)
      else if seen.contains index then fault (.childTwice index)
      else return index :: (← go (index :: seen) rest)
  go [] body.childIndices

mutual

/-- The records of a tree, those of the children before that of their parent. -/
def write (table : OpcodeTable) (layout : Layout) (path : Path) :
    Prototype → Except Fault Bytes
  | node body _ children => do
    let order ← childOrder path body children.length
    let written := writeList table layout path 0 children
    let below ← Output.each (fun index => written.getD index (.ok [])) order
    let own ← body.writeRecord table layout path
    return below ++ own

/-- The records of each child from number `index` on. -/
def writeList (table : OpcodeTable) (layout : Layout) (path : Path) (index : Nat) :
    List Prototype → List (Except Fault Bytes)
  | [] => []
  | p :: ps => p.write table layout (path.child index) :: writeList table layout path (index + 1) ps

end

end Prototype

end BytecodeDump
