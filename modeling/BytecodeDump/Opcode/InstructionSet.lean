-- The opcodes of bytecode version 2, in the order of their numbers.
import BytecodeDump.Opcode

namespace BytecodeDump

namespace Opcode

/-- One opcode of the instruction set. -/
structure Entry where
  mnemonic : String
  slots : OperandSlots
  deriving DecidableEq, Repr

/-! ## The instruction set -/

/-- Opcodes with A and D. -/
def withAD (names : List String) : List Entry := names.map (⟨·, .ofModes true false true⟩)

/-- Opcodes with A, B and C. -/
def withABC (names : List String) : List Entry := names.map (⟨·, .ofModes true true true⟩)

/-- Opcodes with D alone. -/
def withD (names : List String) : List Entry := names.map (⟨·, .ofModes false false true⟩)

/-- Opcodes with A alone. -/
def withA (names : List String) : List Entry := names.map (⟨·, .ofModes true false false⟩)

/-- Every opcode of version 2. -/
def entries : List Entry :=
    -- comparisons
    withAD ["ISLT", "ISGE", "ISLE", "ISGT", "ISEQV", "ISNEV", "ISEQS", "ISNES", "ISEQN",
        "ISNEN", "ISEQP", "ISNEP"]
    -- tests and type checks
    ++ withAD ["ISTC", "ISFC"]
    ++ withD ["IST", "ISF"]
    ++ withAD ["ISTYPE", "ISNUM"]
    -- one operand
    ++ withAD ["MOV", "NOT", "UNM", "LEN"]
    -- two operands
    ++ withABC ["ADDVN", "SUBVN", "MULVN", "DIVVN", "MODVN", "ADDNV", "SUBNV", "MULNV", "DIVNV",
        "MODNV", "ADDVV", "SUBVV", "MULVV", "DIVVV", "MODVV", "POW", "CAT"]
    -- constants
    ++ withAD ["KSTR", "KCDATA", "KSHORT", "KNUM", "KPRI", "KNIL"]
    -- upvalues and closures
    ++ withAD ["UGET", "USETV", "USETS", "USETN", "USETP", "UCLO", "FNEW"]
    -- tables
    ++ withAD ["TNEW", "TDUP", "GGET", "GSET"]
    ++ withABC ["TGETV", "TGETS", "TGETB", "TGETR", "TSETV", "TSETS", "TSETB"]
    ++ withAD ["TSETM"]
    ++ withABC ["TSETR"]
    -- calls
    ++ withABC ["CALLM", "CALL"]
    ++ withAD ["CALLMT", "CALLT"]
    ++ withABC ["ITERC", "ITERN", "VARG"]
    ++ withAD ["ISNEXT"]
    -- returns
    ++ withAD ["RETM", "RET", "RET0", "RET1"]
    -- loops and jumps
    ++ withAD ["FORI", "JFORI", "FORL", "IFORL", "JFORL", "ITERL", "IITERL", "JITERL", "LOOP",
        "ILOOP", "JLOOP", "JMP"]
    -- function headers
    ++ withA ["FUNCF", "IFUNCF"]
    ++ withAD ["JFUNCF"]
    ++ withA ["FUNCV", "IFUNCV"]
    ++ withAD ["JFUNCV"]
    ++ withA ["FUNCC", "FUNCCW"]

/-- The number of the opcode with this name, in exactly these letters. -/
def ofName? (name : String) : Option UInt8 :=
  (entries.findIdx? (·.mnemonic = name)).map UInt8.ofNat

end Opcode

/-- The table of version 2. An opcode outside it counts as one with A and D, which
keep every bit of its word. -/
def OpcodeTable.builtin : OpcodeTable where
  slots opcode := (Opcode.entries[opcode.toNat]?).elim .ad (·.slots)
  mnemonic opcode := (Opcode.entries[opcode.toNat]?).map (·.mnemonic)

end BytecodeDump
