-- JSON values. A string keeps the surrogates that stand in it as escapes, and a number
-- keeps its digits, so that each reader decides what it can take.
import BytecodeDump.Decimal.Numeral

namespace BytecodeDump

namespace Json

/-! ## Strings -/

/-- A part of a string. -/
inductive Piece where
  | char (c : Char)
  /-- Sixteen bits, written as an escape. -/
  | unit (bits : UInt16)
  deriving DecidableEq, Repr

namespace Piece

/-- The character of two surrogates, the high one first. -/
def pair? (high low : UInt16) : Option Char :=
  if 0xD800 ≤ high ∧ high < 0xDC00 ∧ 0xDC00 ≤ low ∧ low < 0xE000 then
    some (Char.ofNat (0x10000 + (high.toNat - 0xD800) * 0x400 + (low.toNat - 0xDC00)))
  else none

/-- The character of sixteen bits that are no surrogate. -/
def single? (bits : UInt16) : Option Char :=
  if 0xD800 ≤ bits ∧ bits < 0xE000 then none else some (Char.ofNat bits.toNat)

/-- The characters of a string; there are none where a surrogate stands alone. -/
def chars? : List Piece → Option (List Char)
  | [] => some []
  | char c :: rest => (chars? rest).map (c :: ·)
  | unit a :: unit b :: rest =>
    match pair? a b with
    | some c => (chars? rest).map (c :: ·)
    | none => do
      let c ← single? a
      let others ← chars? (unit b :: rest)
      return c :: others
  | unit a :: rest => do
    let c ← single? a
    let others ← chars? rest
    return c :: others

/-- The text of a string. -/
def text? (pieces : List Piece) : Option String := (chars? pieces).map String.ofList

/-- The string with this text. -/
def ofText (text : String) : List Piece := text.toList.map char

end Piece

/-! ## Values -/

/-- A JSON value. The fields of an object keep their order, and may come twice. -/
inductive Value where
  | null
  | bool (value : Bool)
  | number (value : Numeral)
  | string (pieces : List Piece)
  | array (items : List Value)
  | object (fields : List (List Piece × Value))

namespace Value

/-- A string with this text. -/
def text (s : String) : Value := string (Piece.ofText s)

def int (n : Int) : Value := number (.ofInt n)

def nat (n : Nat) : Value := number { whole := n }

/-- An object with these fields. -/
def record (fields : List (String × Value)) : Value :=
  object (fields.map fun (name, value) => (Piece.ofText name, value))

/-- The value of a variant: its name over what it carries. -/
def variant (name : String) (value : Value) : Value := record [(name, value)]

end Value

end Json

end BytecodeDump
