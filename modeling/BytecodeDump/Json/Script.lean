-- Scripts as JSON, and JSON as scripts. Bytes are lists of numbers, flags are texts, and
-- variants are named. What a prototype knows of its parent is left out.
import BytecodeDump.Json.Field
import BytecodeDump.Json.Parser
import BytecodeDump.Json.Printer
import BytecodeDump.Decimal.Shortest
import BytecodeDump.Script

namespace BytecodeDump

open Json

/-! ## Small parts -/

/-- Doubles: without an exponent from 0.00001 up to 10 to the 16th, and then with a digit
after the point. -/
def Json.doubleStyle : Decimal.Style := ⟨.even, some (-5), some 16, true⟩

namespace Double

/-- What is not finite has no number and is null. -/
def toJson (x : Double) : Value := if x.isFinite then .number (doubleStyle.numeral x) else .null

end Double

namespace Json

def ofBytes (bytes : Bytes) : Value := .array (bytes.map fun b => .nat b.toNat)

end Json

namespace OperandSlots

def fieldNames : List String := ["a", "b", "c", "d"]

def toJson (s : OperandSlots) : Value :=
  .record [("a", .bool s.a), ("b", .bool s.b), ("c", .bool s.c), ("d", .bool s.d)]

def ofJson : Read OperandSlots
  | _ + 1, v => do
    let fields ← Read.record fieldNames v
    let a ← (Read.get fields "a").bind Read.bool
    let b ← (Read.get fields "b").bind Read.bool
    let c ← (Read.get fields "c").bind Read.bool
    let d ← (Read.get fields "d").bind Read.bool
    return ⟨a, b, c, d⟩
  | 0, _ => Option.none

end OperandSlots

namespace Instruction

def fieldNames : List String := ["opcode", "slots", "a", "b", "c", "d"]

def toJson (i : Instruction) : Value :=
  .record [("opcode", .nat i.opcode.toNat), ("slots", i.slots.toJson), ("a", .nat i.a.toNat),
    ("b", .nat i.b.toNat), ("c", .nat i.c.toNat), ("d", .nat i.d.toNat)]

def ofJson : Read Instruction
  | room + 1, v => do
    let fields ← Read.record fieldNames v
    let opcode ← (Read.get fields "opcode").bind (Read.nat 0x100)
    let slots ← (Read.get fields "slots").bind (OperandSlots.ofJson room)
    let a ← (Read.get fields "a").bind (Read.nat 0x100)
    let b ← (Read.get fields "b").bind (Read.nat 0x100)
    let c ← (Read.get fields "c").bind (Read.nat 0x100)
    let d ← (Read.get fields "d").bind (Read.nat 0x10000)
    return ⟨.ofNat opcode, slots, .ofNat a, .ofNat b, .ofNat c, .ofNat d⟩
  | 0, _ => none

end Instruction

namespace Upvalue

def fieldNames : List String := ["index", "readonly", "local"]

def toJson (u : Upvalue) : Value :=
  .record [("index", .nat u.index.toNat), ("readonly", .bool u.readonly),
    ("local", .bool u.isLocal)]

def ofJson : Read Upvalue
  | _ + 1, v => do
    let fields ← Read.record fieldNames v
    let index ← (Read.get fields "index").bind (Read.nat 0x10000)
    let readonly ← (Read.get fields "readonly").bind Read.bool
    let isLocal ← (Read.get fields "local").bind Read.bool
    return ⟨.ofNat index, readonly, isLocal⟩
  | 0, _ => none

end Upvalue

/-! ## Debug blocks -/

namespace LoopVariable

def jsonName : LoopVariable → String
  | index => "ForIndex"
  | limit => "ForLimit"
  | step => "ForStep"
  | generator => "ForGenerator"
  | state => "ForState"
  | control => "ForControl"

def all : List LoopVariable := [index, limit, step, generator, state, control]

def ofJson : Read LoopVariable := fun room v => do
  let (name, carried, _) ← Read.variant room v
  if Read.isBare carried then all.find? (·.jsonName = name) else none

end LoopVariable

namespace LocalName

def toJson : LocalName → Value
  | named bytes => .variant "Named" (ofBytes bytes)
  | loop v => .variant "Special" (.text v.jsonName)

def ofJson : Read LocalName := fun room v => do
  let (name, carried, room) ← Read.variant room v
  let carried ← carried
  if name = "Named" then return .named (← Read.bytes room carried)
  else if name = "Special" then return .loop (← LoopVariable.ofJson room carried)
  else none

end LocalName

namespace LocalVariable

def fieldNames : List String := ["name", "scope_begin", "scope_len"]

def toJson (v : LocalVariable) : Value :=
  .record [("name", v.name.toJson), ("scope_begin", .nat v.first.toNat),
    ("scope_len", .nat v.count.toNat)]

def ofJson : Read LocalVariable
  | room + 1, v => do
    let fields ← Read.record fieldNames v
    let name ← (Read.get fields "name").bind (LocalName.ofJson room)
    let first ← (Read.get fields "scope_begin").bind (Read.nat 0x100000000)
    let count ← (Read.get fields "scope_len").bind (Read.nat 0x100000000)
    return ⟨name, .ofNat first, .ofNat count⟩
  | 0, _ => none

end LocalVariable

namespace DebugInfo

def fieldNames : List String := ["first_line", "line_count", "lines", "upvalue_names", "locals"]

def toJson (d : DebugInfo) : Value :=
  .record [("first_line", .nat d.firstLine.toNat), ("line_count", .nat d.lineCount.toNat),
    ("lines", .array (d.lines.map fun line => .nat line.toNat)),
    ("upvalue_names", .array (d.upvalueNames.map ofBytes)),
    ("locals", .array (d.locals.map LocalVariable.toJson))]

def ofJson : Read DebugInfo
  | room + 1, v => do
    let fields ← Read.record fieldNames v
    let firstLine ← (Read.get fields "first_line").bind (Read.nat 0x100000000)
    let lineCount ← (Read.get fields "line_count").bind (Read.nat 0x100000000)
    let lines ← (Read.get fields "lines").bind (Read.list (fun _ => Read.nat 0x100000000) room)
    let upvalueNames ← (Read.get fields "upvalue_names").bind (Read.list Read.bytes room)
    let locals ← (Read.get fields "locals").bind (Read.list LocalVariable.ofJson room)
    return ⟨.ofNat firstLine, .ofNat lineCount, lines.map .ofNat, upvalueNames, locals⟩
  | 0, _ => none

end DebugInfo

/-! ## Constants -/

namespace TableValue

def toJson : TableValue → Value
  | nil => .text "Nil"
  | bool value => .text (if value then "True" else "False")
  | int32 n => .variant "Int32" (.int n.toInt)
  | int64 n => .variant "Int64" (.int n.toInt)
  | string bytes => .variant "Str" (ofBytes bytes)

def ofJson : Read TableValue := fun room v => do
  match ← Read.variant room v with
  | ("Nil", carried, _) => if Read.isBare carried then some .nil else none
  | ("False", carried, _) => if Read.isBare carried then some (.bool false) else none
  | ("True", carried, _) => if Read.isBare carried then some (.bool true) else none
  | ("Int32", some v, _) => (Read.int32 v).map .int32
  | ("Int64", some v, _) => (Read.int64 v).map .int64
  | ("Str", some v, room) => (Read.bytes room v).map .string
  | _ => none

end TableValue

namespace Table

def fieldNames : List String := ["array", "dict"]

def toJson (t : Table) : Value :=
  .record [("array", .array (t.array.map TableValue.toJson)),
    ("dict", .array (t.dict.map fun (k, v) => .array [k.toJson, v.toJson]))]

/-- The pairs are taken as they stand. -/
def ofJson : Read Table
  | room + 1, v => do
    let fields ← Read.record fieldNames v
    let array ← (Read.get fields "array").bind (Read.list TableValue.ofJson room)
    let dict ← (Read.get fields "dict").bind (Read.list (Read.pair TableValue.ofJson) room)
    return ⟨array, dict⟩
  | 0, _ => none

end Table

namespace Complex

def fieldNames : List String := ["re", "im"]

def toJson (z : Complex) : Value := .record [("re", z.re.toJson), ("im", z.im.toJson)]

def ofJson : Read Complex
  | _ + 1, v => do
    let fields ← Read.record fieldNames v
    let re ← (Read.get fields "re").bind Read.double
    let im ← (Read.get fields "im").bind Read.double
    return ⟨re, im⟩
  | 0, _ => none

end Complex

namespace Constant

def toJson : Constant → Value
  | child index => .variant "Child" (.nat index)
  | table t => .variant "Table" t.toJson
  | int64 n => .variant "Int64" (.int n.toInt)
  | uint64 n => .variant "Uint64" (.nat n.toNat)
  | complex z => .variant "Complex" z.toJson
  | string bytes => .variant "Str" (ofBytes bytes)

def ofJson : Read Constant := fun room v => do
  match ← Read.variant room v with
  | ("Child", some v, _) => (Read.nat 0x10000000000000000 v).map .child
  | ("Table", some v, room) => (Table.ofJson room v).map .table
  | ("Int64", some v, _) => (Read.int64 v).map .int64
  | ("Uint64", some v, _) => (Read.nat 0x10000000000000000 v).map fun n => .uint64 (.ofNat n)
  | ("Complex", some v, room) => (Complex.ofJson room v).map .complex
  | ("Str", some v, room) => (Read.bytes room v).map .string
  | _ => none

end Constant

namespace NumberConstant

def toJson : NumberConstant → Value
  | int n => .variant "Int" (.int n.toInt)
  | double x => .variant "Float" x.toJson

def ofJson : Read NumberConstant := fun room v => do
  match ← Read.variant room v with
  | ("Int", some v, _) => (Read.int32 v).map .int
  | ("Float", some v, _) => (Read.double v).map .double
  | _ => none

end NumberConstant

/-! ## Prototypes and scripts -/

namespace PrototypeFlags

def toJson (f : PrototypeFlags) : Value := .text (Flags.text names f.bits.toNat)

def ofJson (v : Value) : Option PrototypeFlags := do
  let bits ← Flags.ofText? names 0x100 (← Read.text v)
  return ⟨.ofNat bits⟩

end PrototypeFlags

namespace ScriptFlags

def toJson (f : ScriptFlags) : Value := .text (Flags.text names f.bits.toNat)

def ofJson (v : Value) : Option ScriptFlags := do
  let bits ← Flags.ofText? names 0x100000000 (← Read.text v)
  return ⟨.ofNat bits⟩

end ScriptFlags

namespace Body

/-- The fields of a body in a record of a prototype. -/
def toJsonFields (b : Body) : List (String × Value) :=
  [("flags", b.flags.toJson), ("args", .nat b.args.toNat), ("max_slot", .nat b.maxSlot.toNat),
    ("debug", b.debug.elim .null DebugInfo.toJson),
    ("code", .array (b.code.map Instruction.toJson)),
    ("upvalues", .array (b.upvalues.map Upvalue.toJson)),
    ("constants", .array (b.constants.map Constant.toJson)),
    ("numbers", .array (b.numbers.map NumberConstant.toJson))]

/-- Reads the body out of the fields of a prototype. -/
def ofJsonFields (room : Nat) (fields : Read.Fields) : Option Body := do
  let flags ← (Read.get fields "flags").bind PrototypeFlags.ofJson
  let args ← (Read.get fields "args").bind (Read.nat 0x100)
  let maxSlot ← (Read.get fields "max_slot").bind (Read.nat 0x100)
  let debug ← Read.optional fields "debug" (DebugInfo.ofJson room)
  let code ← (Read.get fields "code").bind (Read.list Instruction.ofJson room)
  let upvalues ← (Read.get fields "upvalues").bind (Read.list Upvalue.ofJson room)
  let constants ← (Read.get fields "constants").bind (Read.list Constant.ofJson room)
  let numbers ← (Read.get fields "numbers").bind (Read.list NumberConstant.ofJson room)
  return { flags, args := .ofNat args, maxSlot := .ofNat maxSlot, debug, code, upvalues,
           constants, numbers }

end Body

namespace Prototype

def fieldNames : List String :=
  ["flags", "args", "max_slot", "debug", "code", "upvalues", "constants", "numbers", "children"]

mutual

def toJson : Prototype → Value
  | node body _ children =>
    .record (body.toJsonFields ++ [("children", .array (toJsonList children))])

def toJsonList : List Prototype → List Value
  | [] => []
  | p :: ps => toJson p :: toJsonList ps

end

/-- A prototype and the array of its children take two levels. -/
def ofJson : Read Prototype
  | room + 2, v => do
    let fields ← Read.record fieldNames v
    let body ← Body.ofJsonFields (room + 1) fields
    match ← Read.get fields "children" with
    | .array children => return .node body none (← children.mapM (ofJson room))
    | _ => none
  | _, _ => none

end Prototype

namespace Script

def fieldNames : List String := ["version", "flags", "chunk_name", "root"]

def toJson (s : Script) : Value :=
  .record [("version", .nat s.version.toNat), ("flags", s.flags.toJson),
    ("chunk_name", ofBytes s.chunkName), ("root", s.root.toJson)]

def ofJson : Read Script
  | room + 1, v => do
    let fields ← Read.record fieldNames v
    let version ← (Read.get fields "version").bind (Read.nat 0x100)
    let flags ← (Read.get fields "flags").bind ScriptFlags.ofJson
    let chunkName ← (Read.get fields "chunk_name").bind (Read.bytes room)
    let root ← (Read.get fields "root").bind (Prototype.ofJson room)
    return { version := .ofNat version, flags, chunkName, root }
  | 0, _ => none

/-- The script of a JSON text. No prototype knows its parent. -/
def parseJson? (text : String) : Option Script := (Value.parse? text).bind (ofJson maxLevels)

end Script

end BytecodeDump
