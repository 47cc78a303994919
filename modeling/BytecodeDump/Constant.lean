-- The constants of a prototype: the numbers, and everything else.
import BytecodeDump.Double
import BytecodeDump.Table

namespace BytecodeDump

/-! ## Numbers -/

/-- A number constant. The form is part of the constant: the integer 1 is not the
double 1. -/
inductive NumberConstant where
  | int (value : Int32)
  | double (value : Double)
  deriving DecidableEq

namespace NumberConstant

/-- The number as a double. -/
def toDouble : NumberConstant → Double
  | int value => .ofInt value.toInt
  | double value => value

end NumberConstant

/-! ## Other constants -/

/-- The kinds of a constant. A tag from 5 on is a string, with its length added. -/
inductive ConstantKind where
  | child | table | int64 | uint64 | complex | string
  deriving DecidableEq, Repr

/-- The kind of a tag. -/
def ConstantKind.ofTag : Nat → ConstantKind
  | 0 => child
  | 1 => table
  | 2 => int64
  | 3 => uint64
  | 4 => complex
  | _ => string

/-- A complex number. -/
structure Complex where
  re : Double
  im : Double
  deriving DecidableEq

/-- A constant that is no number. -/
inductive Constant where
  /-- The child with this index of the prototype that owns the constant. -/
  | child (index : Nat)
  | table (value : Table)
  | int64 (value : Int64)
  | uint64 (value : UInt64)
  | complex (value : Complex)
  | string (bytes : Bytes)
  deriving DecidableEq

namespace Constant

def kind : Constant → ConstantKind
  | child _ => .child
  | table _ => .table
  | int64 _ => .int64
  | uint64 _ => .uint64
  | complex _ => .complex
  | string _ => .string

/-- The tag in a dump: a number for each kind, and the length on top for a string. -/
def tag : Constant → Nat
  | child _ => 0
  | table _ => 1
  | int64 _ => 2
  | uint64 _ => 3
  | complex _ => 4
  | string bytes => 5 + bytes.length

/-- The bytes of a string. -/
def bytes? : Constant → Option Bytes
  | string bytes => some bytes
  | _ => none

/-- The index of a child constant. -/
def childIndex? : Constant → Option Nat
  | child index => some index
  | _ => none

end Constant

end BytecodeDump
