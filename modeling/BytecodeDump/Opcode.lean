-- What an opcode is to a dump: which of the operand fields of its word mean
-- something, and how it is called. A table answers both for every opcode byte.

namespace BytecodeDump

/-! ## Operand fields -/

/-- The operand fields of an instruction word. -/
inductive Operand where
  | a | b | c | d
  deriving DecidableEq, Repr

namespace Operand

/-- The letter that names the field. -/
def letter : Operand → Char
  | a => 'A'
  | b => 'B'
  | c => 'C'
  | d => 'D'

/-- What the field holds: one byte, and two for D. -/
abbrev Word : Operand → Type
  | a | b | c => UInt8
  | d => UInt16

end Operand

/-- The operand fields that an opcode declares. C is the low half of D, and B its
high half, so a sound table declares D alone or with A only. -/
structure OperandSlots where
  a : Bool
  b : Bool
  c : Bool
  d : Bool
  deriving DecidableEq, Repr

namespace OperandSlots

/-- No operand. -/
def none : OperandSlots := ⟨false, false, false, false⟩

/-- A and D: with these every bit above the opcode byte means something. -/
def ad : OperandSlots := ⟨true, false, false, true⟩

/-- The fields of an opcode that uses A, uses B, and uses the third operand, which
is C beside B and D otherwise. -/
def ofModes (a b third : Bool) : OperandSlots := ⟨a, b, b && third, !b && third⟩

/-- Whether the field is declared. -/
def declares (s : OperandSlots) : Operand → Bool
  | .a => s.a
  | .b => s.b
  | .c => s.c
  | .d => s.d

/-- The slots with their field names, as messages show them. -/
def describe (s : OperandSlots) : String :=
  "OperandSlots \x7b a: " ++ word s.a ++ ", b: " ++ word s.b ++ ", c: " ++ word s.c
    ++ ", d: " ++ word s.d ++ " \x7d"
where
  word : Bool → String
    | true => "true"
    | false => "false"

end OperandSlots

/-! ## Tables -/

/-- The slots of every opcode, and the names of those that have one. -/
structure OpcodeTable where
  slots : UInt8 → OperandSlots
  mnemonic : UInt8 → Option String := fun _ => none

end BytecodeDump
