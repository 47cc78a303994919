-- Debug blocks in a dump: a line for each instruction, a name for each upvalue, and
-- the local variables up to a zero. The start of a scope is written as the distance
-- from the start of the scope before it.
import BytecodeDump.Debug
import BytecodeDump.Wire.Feed
import BytecodeDump.Wire.Output

namespace BytecodeDump

/-! ## Local variables -/

namespace LocalVariable

/-- Reads the name whose first byte was seen to be no zero. -/
def readName (lead : UInt8) : Reader LocalName := do
  match LoopVariable.ofCode? lead with
  | some v =>
    let _ ← Reader.byte
    return .loop v
  | none => return .named (← Reader.cstring)

/-- Reads a variable that is listed after a scope that starts at `previous`. -/
def read (lead : UInt8) (previous : UInt32) : Reader LocalVariable := do
  let start ← Reader.pos
  let name ← readName lead
  let distance ← Reader.leb32
  let count ← Reader.leb32
  if previous.toNat + distance.toNat < 0x100000000 then return ⟨name, previous + distance, count⟩
  else Reader.fail fun _ => .corrupted (.scopeTooLarge start)

/-- Reads variables up to a zero. Each takes bytes, so with as many steps as there are
bytes the steps never run out before the bytes do. -/
def readAll : Nat → UInt32 → Reader (List LocalVariable)
  | 0, _ => Reader.short 1
  | steps + 1, previous => do
    let lead ← Reader.peek
    if lead = 0 then
      let _ ← Reader.byte
      return []
    else
      let first ← read lead previous
      let others ← readAll steps first.first
      return first :: others

end LocalVariable

/-! ## Debug blocks -/

namespace DebugInfo

/-- Reads the block of a prototype with so many instructions and upvalues. -/
def read (e : Endian) (firstLine lineCount : UInt32) (instructions upvalues : Nat) :
    Reader DebugInfo := do
  let info : DebugInfo := { firstLine, lineCount }
  let lines ← Reader.times (Reader.fixed e info.lineWidth) instructions
  let upvalueNames ← Reader.times Reader.cstring upvalues
  let locals ← LocalVariable.readAll (← Reader.left) 0
  return { info with lines := lines.map UInt32.ofNat, upvalueNames, locals }

/-- A name and the zero after it. -/
def writeName (path : Path) (name : Bytes) : Except Fault Bytes :=
  if name.contains 0 then .error (.invalidGraph (.at path (.nameHasNul name)))
  else .ok (name ++ [0])

/-- The line of an instruction as its distance from the first line. -/
def writeLine (e : Endian) (path : Path) (width pc : Nat) (line : UInt32) : Except Fault Bytes :=
  if line.toNat < Endian.span width then .ok (e.write width line.toNat)
  else .error (.invalidGraph (.at path (.lineOffset line pc width)))

/-- A name that a reader takes for nothing else. -/
def writeLocalName (path : Path) : LocalName → Except Fault Bytes
  | .loop v => .ok [v.code]
  | .named name =>
    if name.headD 0 < 7 then .error (.invalidGraph (.at path (.localName name)))
    else writeName path name

/-- The variables that follow a scope that starts at `previous`. -/
def writeLocals (path : Path) : UInt32 → List LocalVariable → Except Fault Bytes
  | _, [] => .ok []
  | previous, v :: rest => do
    let name ← writeLocalName path v.name
    if v.first < previous then
      .error (.invalidGraph (.at path (.scopeOrder v.first previous)))
    else
      let others ← writeLocals path v.first rest
      return name ++ Output.leb32 (v.first - previous) ++ Output.leb32 v.count ++ others

/-- The block of a prototype with so many instructions and upvalues. -/
def write (e : Endian) (path : Path) (instructions upvalues : Nat) (info : DebugInfo) :
    Except Fault Bytes := do
  if info.lines.length ≠ instructions then
    throw (.debugCount "lines" instructions info.lines.length)
  if info.upvalueNames.length ≠ upvalues then
    throw (.debugCount "upvalue names" upvalues info.upvalueNames.length)
  let lines ← Output.each (fun (line, pc) => writeLine e path info.lineWidth pc line)
    info.lines.zipIdx
  let names ← Output.each (writeName path) info.upvalueNames
  let locals ← writeLocals path 0 info.locals
  return lines ++ names ++ locals ++ [0]

end DebugInfo

end BytecodeDump
