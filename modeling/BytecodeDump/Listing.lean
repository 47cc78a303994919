-- Listings of a script for people. Names and strings are bytes and are shown as text.
-- The full listing has a part for each prototype; the compact one has a line for each
-- instruction. An instruction that loads a constant shows the constant after it.
import BytecodeDump.Decimal.Shortest
import BytecodeDump.Script

namespace BytecodeDump

namespace Listing

/-! ## Numbers -/

/-- Number constants: without an exponent from 0.0001 up to 10 to the 16th, and always
with a digit after the point or an exponent. -/
def numberStyle : Decimal.Style := ⟨.up, some (-4), some 16, true⟩

/-- Parts of a complex number: never an exponent, and a point only where it is needed. -/
def complexStyle : Decimal.Style := ⟨.up, none, none, false⟩

/-- A double in a style. Infinities and what is no number have words of their own. -/
def showDouble (style : Decimal.Style) (x : Double) : String :=
  if x.isNaN then "NaN"
  else if x.isInfinite then if x.negative then "-inf" else "inf"
  else (style.numeral x).text false

/-- A double with a sign before it, even where it is not negative. -/
def showSigned (style : Decimal.Style) (x : Double) : String :=
  (if x.negative || x.isNaN then "" else "+") ++ showDouble style x

def showNumber : NumberConstant → String
  | .int n => toString n.toInt
  | .double x => showDouble numberStyle x

/-! ## Constants -/

/-- Strings are cut after this many characters. -/
def stringLimit : Nat := 64

/-- A string of bytes in quotes, as text. -/
def showString (bytes : Bytes) : String := Text.quoteUpTo stringLimit (Utf8.decode bytes)

/-- The bits of a 64-bit integer in base 16, with all of its zeros. -/
def showBits (n : Int64) : String := "0x" ++ Text.padLeft '0' 16 (Text.hex n.toUInt64.toNat)

def showValue : TableValue → String
  | .nil => "nil"
  | .bool value => if value then "true" else "false"
  | .int32 n => toString n.toInt
  | .int64 n => showBits n
  | .string bytes => showString bytes

/-- The pairs of a table: those of the array with their indices, then the others. -/
def showTable (t : Table) : String :=
  let entry (key value : String) : String := "[" ++ key ++ "]=" ++ value
  let array := t.array.zipIdx.map fun (v, index) => entry (toString index) (showValue v)
  let dict := t.dict.map fun (k, v) => entry (showValue k) (showValue v)
  "\x7b" ++ ", ".intercalate (array ++ dict) ++ "\x7d"

/-- How many parameters and instructions a function has. -/
def showExtent (p : Prototype) : String :=
  "args=" ++ toString p.body.args ++ " ops=" ++ toString p.body.code.length

/-- A constant of a prototype. -/
def showConstant (p : Prototype) : Constant → String
  | .child index =>
    "<function #" ++ toString index ++ " "
      ++ (p.children[index]?.elim "missing" showExtent) ++ ">"
  | .table t => showTable t
  | .int64 n => toString n.toInt ++ "LL"
  | .uint64 n => toString n ++ "ULL"
  | .complex z => showDouble complexStyle z.re ++ showSigned complexStyle z.im ++ "i"
  | .string bytes => showString bytes

/-! ## Instructions -/

/-- One operand, if it is declared. -/
def showOperand (i : Instruction) (o : Operand) : String :=
  if i.slots.declares o then " " ++ o.letter.toString ++ "=" ++ value else ""
where
  value : String := match o with
    | .a => toString i.a
    | .b => toString i.b
    | .c => toString i.c
    | .d => toString i.d

/-- The name of an opcode, or its number where the table has no name. -/
def showOpcode (table : OpcodeTable) (opcode : UInt8) : String :=
  (table.mnemonic opcode).getD
    ("OP_" ++ Text.padLeft '0' 2 (Text.hex opcode.toNat).toUpper)

/-- An instruction: its name, and its operands. -/
def showInstruction (table : OpcodeTable) (i : Instruction) : String :=
  Text.padRight 7 (showOpcode table i.opcode)
    ++ String.join ([Operand.a, .b, .c, .d].map (showOperand i))

/-- What the operand D of an instruction stands for. -/
inductive Reference where
  /-- A constant. -/
  | constant
  /-- A constant that names a child, which becomes a function. -/
  | function
  /-- A number. Numbers are counted from the last one. -/
  | number
  deriving DecidableEq, Repr

/-- What an opcode with this name refers to. -/
def Reference.ofMnemonic? (name : String) : Option Reference :=
  if name ∈ ["KSTR", "GGET", "GSET", "KCDATA", "TDUP"] then some .constant
  else if name = "FNEW" then some .function
  else if name = "KNUM" then some .number
  else none

/-- The text of what an instruction of a prototype loads. -/
def preview? (table : OpcodeTable) (p : Prototype) (i : Instruction) : Option String := do
  let reference ← (table.mnemonic i.opcode).bind Reference.ofMnemonic?
  let d ← if i.slots.d then some i.d.toNat else none
  match reference with
  | .constant => (p.body.constants[d]?).map (showConstant p)
  | .function =>
    let child ← (p.body.constants[d]?).bind p.child?
    some ("function (args=" ++ toString child.body.args ++ ", ops="
      ++ toString child.body.code.length ++ ")")
  | .number =>
    if d < p.body.numbers.length then
      (p.body.numbers[p.body.numbers.length - (d + 1)]?).map showNumber
    else none

/-- An instruction with what it loads. -/
def showStep (table : OpcodeTable) (p : Prototype) (i : Instruction) : String :=
  showInstruction table i ++ ((preview? table p i).elim "" (" ;; " ++ ·))

/-! ## The compact listing -/

/-- The lines of one prototype. -/
def compactLines (table : OpcodeTable) (path : Path) (p : Prototype) : List String :=
  p.body.code.zipIdx.map fun (i, pc) =>
    path.text ++ ":" ++ Text.index4 pc ++ ": " ++ showStep table p i

/-- A line for each instruction of the tree. -/
def compact (table : OpcodeTable) (script : Script) : String :=
  String.join ((script.walk.flatMap fun (path, p) => compactLines table path p).map (· ++ "\n"))

/-! ## The full listing -/

/-- A heading and the lines under it; nothing where there is no line. -/
def titled (heading : String) (lines : List String) : List String :=
  if lines.isEmpty then [] else heading :: lines

/-- What stands in the title of a prototype. -/
def prototypeTitle (path : Path) (b : Body) : String :=
  "-- " ++ path.text ++ " -- (flags="
    ++ Flags.described "PrototypeFlags" PrototypeFlags.names b.flags.bits.toNat
    ++ ", args=" ++ toString b.args ++ ", slots=" ++ toString b.maxSlot
    ++ ", upvalues=" ++ toString b.upvalues.length
    ++ ", consts=" ++ toString b.constants.length
    ++ ", numbers=" ++ toString b.numbers.length
    ++ ", ops=" ++ toString b.code.length ++ ")"

/-- An instruction with its number and its source line. -/
def codeLine (table : OpcodeTable) (p : Prototype) (i : Instruction) (pc : Nat) : String :=
  let line := (p.body.debug.bind (·.sourceLine? pc)).elim "-" toString
  Text.index4 pc ++ " | " ++ Text.padLeft ' ' 4 line ++ " | " ++ showStep table p i

/-- An upvalue with its name. -/
def upvalueLine (debug : Option DebugInfo) (u : Upvalue) (index : Nat) : String :=
  "uv[" ++ Text.padLeft '0' 3 (toString index) ++ "] " ++ toString u.index
    ++ (if u.isLocal then " local" else " outer") ++ (if u.readonly then " ro " else " ")
    ++ (debug.bind (·.upvalueName? index)).elim "?" Utf8.decode

/-- A local variable with its scope. -/
def localLine (v : LocalVariable) : String :=
  Text.index4 v.first.toNat ++ ".." ++ Text.index4 v.scopeEnd.toNat ++ " "
    ++ Utf8.decode v.name.bytes

/-- The lines of one prototype. -/
def prototypeLines (table : OpcodeTable) (path : Path) (p : Prototype) : List String :=
  let b := p.body
  [prototypeTitle path b]
    ++ b.debug.elim [] (fun d =>
      [";; lines " ++ toString d.firstLine ++ "..+" ++ toString d.lineCount])
    ++ ";; ops" :: b.code.zipIdx.map (fun (i, pc) => codeLine table p i pc)
    ++ titled ";; upvalues" (b.upvalues.zipIdx.map fun (u, index) => upvalueLine b.debug u index)
    ++ titled ";; constants" (b.constants.zipIdx.map fun (k, index) =>
      "const[" ++ Text.index4 index ++ "] = " ++ showConstant p k)
    ++ titled ";; numbers" (b.numbers.zipIdx.map fun (n, index) =>
      "num[" ++ Text.index4 index ++ "] = " ++ showNumber n)
    ++ b.debug.elim [] (fun d => titled ";; locals" (d.locals.map localLine))

/-- The title of a script. -/
def scriptTitle (script : Script) : String :=
  "== " ++ (if script.chunkName.isEmpty then "<stripped>" else Utf8.decode script.chunkName)
    ++ " == (version=" ++ toString script.version
    ++ ", flags=" ++ Flags.described "ScriptFlags" ScriptFlags.names script.flags.bits.toNat
    ++ ", prototypes=" ++ toString script.walk.length ++ ")"

/-- A part for each prototype of the tree, with a blank line before it. -/
def full (table : OpcodeTable) (script : Script) : String :=
  let parts := script.walk.flatMap fun (path, p) => "" :: prototypeLines table path p
  String.join ((scriptTitle script :: parts).map (· ++ "\n"))

end Listing

end BytecodeDump
