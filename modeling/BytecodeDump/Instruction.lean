-- Instructions: a word of 32 bits, with the opcode in the low byte, A above it, and
-- in the upper half either B over C or D. An instruction keeps the operands that its
-- opcode declares and no other bit.
import BytecodeDump.Fault

namespace BytecodeDump

/-- An opcode, the operands that it declares, and their values. The operations below
keep an operand that is not declared at zero. -/
structure Instruction where
  opcode : UInt8
  slots : OperandSlots
  a : UInt8 := 0
  b : UInt8 := 0
  c : UInt8 := 0
  d : UInt16 := 0
  deriving DecidableEq, Repr

namespace Instruction

/-- All operands zero. -/
def blank (opcode : UInt8) (slots : OperandSlots) : Instruction := ⟨opcode, slots, 0, 0, 0, 0⟩

/-- All operands zero, with the slots that the table gives the opcode. -/
def ofTable (table : OpcodeTable) (opcode : UInt8) : Instruction :=
  blank opcode (table.slots opcode)

/-! ## Words -/

/-- The instruction of a word. Bits that the table does not declare are dropped. -/
def ofWord (table : OpcodeTable) (word : UInt32) : Instruction :=
  let opcode := word.toUInt8
  let slots := table.slots opcode
  { opcode, slots
    a := if slots.a then (word >>> 8).toUInt8 else 0
    b := if slots.b then (word >>> 24).toUInt8 else 0
    c := if slots.c then (word >>> 16).toUInt8 else 0
    d := if slots.d then (word >>> 16).toUInt16 else 0 }

/-- The word of an instruction. Declared fields that overlap are joined bit by bit. -/
def toWord (i : Instruction) : UInt32 :=
  i.opcode.toUInt32
    ||| (if i.slots.a then i.a.toUInt32 <<< 8 else 0)
    ||| (if i.slots.b then i.b.toUInt32 <<< 24 else 0)
    ||| (if i.slots.c then i.c.toUInt32 <<< 16 else 0)
    ||| (if i.slots.d then i.d.toUInt32 <<< 16 else 0)

/-! ## Operands -/

/-- The field of an operand, declared or not. -/
def field (i : Instruction) : (o : Operand) → o.Word
  | .a => i.a
  | .b => i.b
  | .c => i.c
  | .d => i.d

/-- The instruction with another value in one field. -/
def withField (i : Instruction) : (o : Operand) → o.Word → Instruction
  | .a, v => { i with a := v }
  | .b, v => { i with b := v }
  | .c, v => { i with c := v }
  | .d, v => { i with d := v }

/-- The value of an operand that the opcode declares. -/
def get (i : Instruction) (o : Operand) : Except Fault o.Word :=
  if i.slots.declares o then .ok (i.field o) else .error (.operand i.opcode o.letter)

/-- Sets an operand that the opcode declares. -/
def set (i : Instruction) (o : Operand) (value : o.Word) : Except Fault Instruction :=
  if i.slots.declares o then .ok (i.withField o value) else .error (.operand i.opcode o.letter)

end Instruction

end BytecodeDump
