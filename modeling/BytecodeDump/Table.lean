-- Table constants: an array from index 0 on, and a dictionary that keeps the order
-- in which its keys came. No key stands in it twice.
import BytecodeDump.Bytes.Endian

namespace BytecodeDump

/-- The kinds of a table value. A tag from 5 on is a string, with its length added. -/
inductive TableValueKind where
  | nil | false | true | int32 | int64 | string
  deriving DecidableEq, Repr

/-- The kind of a tag. -/
def TableValueKind.ofTag : Nat → TableValueKind
  | 0 => nil
  | 1 => false
  | 2 => true
  | 3 => int32
  | 4 => int64
  | _ => string

/-- A key or a value of a table constant. -/
inductive TableValue where
  | nil
  | bool (value : Bool)
  | int32 (value : Int32)
  | int64 (value : Int64)
  | string (bytes : Bytes)
  deriving DecidableEq

namespace TableValue

def kind : TableValue → TableValueKind
  | nil => .nil
  | bool value => if value then .true else .false
  | int32 _ => .int32
  | int64 _ => .int64
  | string _ => .string

/-- The tag in a dump: a number for each kind, and the length on top for a string. -/
def tag : TableValue → Nat
  | nil => 0
  | bool value => if value then 2 else 1
  | int32 _ => 3
  | int64 _ => 4
  | string bytes => 5 + bytes.length

end TableValue

/-- A table constant. -/
structure Table where
  array : List TableValue := []
  dict : List (TableValue × TableValue) := []
  deriving DecidableEq

namespace Table

/-- The table with nothing in it. -/
def empty : Table := ⟨[], []⟩

def isEmpty (t : Table) : Bool := t.array.isEmpty && t.dict.isEmpty

/-! ## The dictionary -/

/-- The value of a key. -/
def getKey? (t : Table) (key : TableValue) : Option TableValue :=
  (t.dict.find? (·.1 = key)).map (·.2)

/-- The pairs after a key took a value: in its old place, or else at the end. -/
def setIn (key value : TableValue) :
    List (TableValue × TableValue) → List (TableValue × TableValue)
  | [] => [(key, value)]
  | (k, v) :: rest => if k = key then (k, value) :: rest else (k, v) :: setIn key value rest

/-- Gives a key a value. -/
def set (t : Table) (key value : TableValue) : Table := { t with dict := setIn key value t.dict }

/-- The value of a key, and the pairs without it; the others stay in their order. -/
def removeFrom (key : TableValue) :
    List (TableValue × TableValue) → Option TableValue × List (TableValue × TableValue)
  | [] => (none, [])
  | (k, v) :: rest =>
    if k = key then (some v, rest)
    else
      let (found, others) := removeFrom key rest
      (found, (k, v) :: others)

/-- Takes a key out: the value that it had, and the table without it. -/
def remove (t : Table) (key : TableValue) : Option TableValue × Table :=
  let (found, others) := removeFrom key t.dict
  (found, { t with dict := others })

/-! ## The array -/

/-- The indices at which a value can be written: the length of an array that ends there is
counted in 64 bits, so the last number of 64 bits is none of them. -/
abbrev Slot := Fin 0xFFFFFFFFFFFFFFFF

/-- The value at an index. -/
def get? (t : Table) (index : Nat) : Option TableValue := t.array[index]?

/-- Writes the value at an index; the places up to it are filled with nil. -/
def push (t : Table) (index : Slot) (value : TableValue) : Table :=
  let filled := t.array ++ List.replicate (index.val + 1 - t.array.length) .nil
  { t with array := filled.set index value }

/-- Takes out the value at an index, where there is one; those after it move down. -/
def pop (t : Table) (index : Nat) : Option TableValue × Table :=
  (t.array[index]?, { t with array := t.array.eraseIdx index })

end Table

end BytecodeDump
