-- What can go wrong with a dump, with a tree that is to become one, and with the
-- bytes below both: the causes, and the words for them.
import BytecodeDump.Opcode
import BytecodeDump.Path
import BytecodeDump.Text.Quoted
import BytecodeDump.Text.Utf8

namespace BytecodeDump

/-! ## Causes -/

/-- Bytes that contradict themselves. -/
inductive Corruption where
  /-- A number goes on for more than ten bytes. -/
  | numberTooLong (offset : Nat)
  /-- A number needs more than 32 bits. -/
  | numberTooLarge (value offset : Nat)
  /-- A marked number needs more than 33 bits. -/
  | markedTooLarge (offset : Nat)
  /-- A debug block is not as long as its prototype says. -/
  | debugLength (offset declared used : Nat)
  /-- A prototype is not as long as the number before it says. -/
  | prototypeLength (offset declared used : Nat)
  /-- The first instruction of a scope is past 32 bits. -/
  | scopeTooLarge (offset : Nat)
  /-- Bytes follow the end of the list of prototypes. -/
  | trailing (count : Nat)
  /-- The prototypes do not make one tree. -/
  | roots (count : Nat)
  deriving DecidableEq, Repr

/-- A part of a tree that no dump can hold. -/
inductive GraphCause where
  /-- A child constant names a child that is not there. -/
  | childMissing (index children : Nat)
  /-- Two child constants name one child. -/
  | childTwice (index : Nat)
  /-- No child constant names this child. -/
  | childUnnamed (index : Nat)
  /-- More upvalues than one byte counts. -/
  | upvalueCount (count : Nat)
  /-- An instruction has other operands than the table gives its opcode. -/
  | operands (pc : Nat) (opcode : UInt8) (carried declared : OperandSlots)
  /-- An upvalue has an index of more than 14 bits. -/
  | upvalueIndex (position : Nat) (index : UInt16)
  /-- A line is too far from the first one for the width of the lines. -/
  | lineOffset (line : UInt32) (pc width : Nat)
  /-- A name would end before its end. -/
  | nameHasNul (name : Bytes)
  /-- A local name that would be read as something else. -/
  | localName (name : Bytes)
  /-- A scope begins before the scope that is listed before it. -/
  | scopeOrder (first previous : UInt32)
  deriving DecidableEq, Repr

/-- Why a tree cannot be written. -/
inductive GraphFault where
  /-- The prototype at the path is at fault. -/
  | at (path : Path) (cause : GraphCause)
  /-- A size of the named part is past 32 bits. -/
  | tooLong (part : String) (size : Nat)
  /-- The length of a string constant, with its tag, is past 32 bits. -/
  | stringTooLong
  deriving DecidableEq, Repr

/-- Everything that can go wrong. -/
inductive Fault where
  /-- The bytes do not begin as a dump does. -/
  | notADump
  /-- A dump of another version. -/
  | version (found : UInt8)
  /-- A read past the end. -/
  | outOfRange (offset needed size : Nat)
  /-- A constant with an unknown tag. -/
  | constantTag (tag : UInt32)
  /-- A table value with an unknown tag. -/
  | tableValueTag (tag : UInt32)
  /-- A child constant finds no finished prototype. -/
  | noPrototypeLeft
  | corrupted (cause : Corruption)
  /-- An operand that the opcode does not declare. -/
  | operand (opcode : UInt8) (operand : Char)
  /-- A list of the debug block does not fit its prototype. -/
  | debugCount (list : String) (expected found : Nat)
  | invalidGraph (cause : GraphFault)
  /-- An integer of no byte or of more than four. -/
  | width (found : Nat)
  deriving DecidableEq, Repr

/-! ## Words -/

namespace Corruption

def message : Corruption → String
  | numberTooLong offset => s!"ULEB128 value too long at offset {offset}"
  | numberTooLarge value offset => s!"ULEB128 value {value} exceeds 32 bits at offset {offset}"
  | markedTooLarge offset => s!"ULEB128_33 value exceeds 33 bits at offset {offset}"
  | debugLength offset declared used =>
    s!"debug block at offset {offset} declares {declared} bytes, used {used}"
  | prototypeLength offset declared used =>
    s!"prototype at offset {offset} declares {declared} bytes, used {used}"
  | scopeTooLarge offset => s!"local variable scope overflows at offset {offset}"
  | trailing count => s!"{count} trailing bytes after the prototype list"
  | roots count => s!"expected one root prototype, found {count}"

end Corruption

namespace GraphCause

/-- A name in quotes, as text. -/
def shown (name : Bytes) : String := Text.quote (Utf8.decode name)

def message : GraphCause → String
  | childMissing index children => s!"child constant {index} out of range ({children} children)"
  | childTwice index => s!"child {index} referenced twice"
  | childUnnamed index => s!"child {index} has no constant referencing it"
  | upvalueCount count => s!"{count} upvalues (max 255)"
  | operands pc opcode carried declared =>
    s!"instruction {pc} (opcode {opcode}) carries operands " ++ carried.describe
      ++ ", opcode table declares " ++ declared.describe
  | upvalueIndex position index => s!"upvalue {position} index {index} exceeds 14 bits"
  | lineOffset line pc width =>
    s!"line offset {line} at instruction {pc} does not fit {width} byte(s)"
  | nameHasNul name => "name " ++ shown name ++ " contains NUL"
  | localName name => "local name " ++ shown name ++ " cannot be encoded"
  | scopeOrder first previous =>
    s!"local scopes must start in order ({first} after {previous})"

end GraphCause

namespace GraphFault

def message : GraphFault → String
  | .at path cause => path.text ++ ": " ++ cause.message
  | tooLong part size => s!"{part} length {size} exceeds 32 bits"
  | stringTooLong => "string constant too long"

end GraphFault

namespace Fault

/-- The words for bytes that contradict themselves, from those for the cause. -/
def corruptedMessage (cause : String) : String := "corrupted bytecode: " ++ cause

/-- The words for a tree that no dump can hold, from those for the cause. -/
def graphMessage (cause : String) : String := "invalid prototype graph: " ++ cause

def message : Fault → String
  | notADump => "invalid bytecode magic (expected \\x1BLJ)"
  | version found => s!"unsupported bytecode version {found} (only version 2 is supported)"
  | outOfRange offset needed size =>
    s!"out of range: need {needed} bytes at offset {offset} (buffer size {size})"
  | constantTag tag => s!"invalid generic constant type {tag}"
  | tableValueTag tag => s!"invalid table value type {tag}"
  | noPrototypeLeft => "prototype stack underflow"
  | corrupted cause => corruptedMessage cause.message
  | operand opcode letter => s!"opcode {opcode} has no operand {letter}"
  | debugCount list expected found =>
    s!"debug info for {list} has {found} entries, expected {expected}"
  | invalidGraph cause => graphMessage cause.message
  | width found => s!"invalid integer width {found} (expected 1..=4)"

end Fault

end BytecodeDump
