-- JSON values as values of a known form. Arrays and objects may be nested only so deep:
-- a reader has room for some levels, and each array or object takes one.
import BytecodeDump.Bytes.Endian
import BytecodeDump.Json.Number
import BytecodeDump.Json.Value

namespace BytecodeDump

namespace Json

/-- Reads a value with room for some levels. -/
abbrev Read (α : Type) := Nat → Value → Option α

/-- How many levels a text may have. -/
def maxLevels : Nat := 127

namespace Read

/-- An integer in a range, both ends included. -/
def int (low high : Int) : Value → Option Int
  | .number n => n.toInt?.filter fun i => low ≤ i ∧ i ≤ high
  | _ => none

/-- A natural number below a bound. -/
def nat (bound : Nat) (v : Value) : Option Nat := (int 0 (bound - 1) v).map Int.toNat

/-- An integer of 32 bits with a sign. -/
def int32 (v : Value) : Option Int32 := (int (-0x80000000) 0x7FFFFFFF v).map .ofInt

/-- An integer of 64 bits with a sign. -/
def int64 (v : Value) : Option Int64 :=
  (int (-0x8000000000000000) 0x7FFFFFFFFFFFFFFF v).map .ofInt

def bool : Value → Option Bool
  | .bool value => some value
  | _ => none

def double : Value → Option Double
  | .number n => n.toDouble?
  | _ => none

def text : Value → Option String
  | .string pieces => Piece.text? pieces
  | _ => none

/-- An array of values of one form. -/
def list {α : Type} (item : Read α) : Read (List α)
  | room + 1, .array vs => vs.mapM (item room)
  | _, _ => none

/-- An array of exactly two values of one form. -/
def pair {α : Type} (item : Read α) : Read (α × α)
  | room + 1, .array [a, b] => return (← item room a, ← item room b)
  | _, _ => none

/-- An array of numbers from 0 to 255. -/
def bytes : Read Bytes := list fun _ v => (nat 0x100 v).map UInt8.ofNat

/-! ## Records -/

/-- Fields by their names. -/
abbrev Fields := List (String × Value)

/-- The fields of a record with these names: an object in which each of them stands at
most once, beside others, or an array of exactly their values in order. -/
def record (names : List String) : Value → Option Fields
  | .array vs => if vs.length = names.length then some (names.zip vs) else none
  | .object fields => do
    let named ← fields.mapM fun (name, v) => (Piece.text? name).map (·, v)
    if names.all fun name => named.countP (·.1 = name) ≤ 1 then some named else none
  | _ => none

/-- The value of a field. -/
def get (fields : Fields) (name : String) : Option Value := fields.lookup name

/-- The value of a field that may be missing or null. -/
def optional {α : Type} (fields : Fields) (name : String) (read : Value → Option α) :
    Option (Option α) :=
  match get fields name with
  | none | some .null => some none
  | some v => (read v).map some

/-! ## Variants -/

/-- A variant: its name, and the value that it carries. Null may stand for no value. -/
def variant : Read (String × Option Value × Nat)
  | room, .string pieces => (Piece.text? pieces).map (·, none, room)
  | room + 1, .object [(name, v)] => (Piece.text? name).map (·, some v, room)
  | _, _ => none

/-- Whether a variant carries nothing. -/
def isBare : Option Value → Bool
  | none | some .null => true
  | _ => false

end Read

end Json

end BytecodeDump
