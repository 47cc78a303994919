-- Constants in a dump: a tag, and what the tag calls for. A child constant is a tag
-- alone; it takes the prototype that was finished last and that no constant took yet.
import BytecodeDump.Constant
import BytecodeDump.Wire.Feed
import BytecodeDump.Wire.Output

namespace BytecodeDump

/-! ## Table values -/

namespace TableValue

def read : Reader TableValue := do
  let tag ← Reader.leb32
  match TableValueKind.ofTag tag.toNat with
  | .nil => return .nil
  | .false => return .bool false
  | .true => return .bool true
  | .int32 => return .int32 (← Reader.leb32).toInt32
  | .int64 => return .int64 (← Reader.word64).toInt64
  | .string => return .string (← Reader.bytes (tag.toNat - 5))

def write (v : TableValue) : Except Fault Bytes := do
  let tag ← Output.tag v.tag
  let payload := match v with
    | nil | bool _ => []
    | int32 n => Output.leb32 n.toUInt32
    | int64 n => Output.word64 n.toUInt64
    | string bytes => bytes
  return tag ++ payload

end TableValue

/-! ## Tables -/

namespace Table

/-- A key and its value. -/
def readPair : Reader (TableValue × TableValue) := do
  let key ← TableValue.read
  let value ← TableValue.read
  return (key, value)

/-- A key that comes again takes its new value in its first place. -/
def read : Reader Table := do
  let arraySize ← Reader.leb32
  let dictSize ← Reader.leb32
  let array ← Reader.times TableValue.read arraySize.toNat
  let pairs ← Reader.times readPair dictSize.toNat
  return pairs.foldl (fun t (key, value) => t.set key value) ⟨array, []⟩

def writePair (pair : TableValue × TableValue) : Except Fault Bytes :=
  return (← pair.1.write) ++ (← pair.2.write)

def write (t : Table) : Except Fault Bytes := do
  let arraySize ← Output.size "table array" t.array.length
  let dictSize ← Output.size "table dictionary" t.dict.length
  let array ← Output.each TableValue.write t.array
  let pairs ← Output.each writePair t.dict
  return arraySize ++ dictSize ++ array ++ pairs

end Table

/-! ## Constants -/

namespace Constant

/-- Reads a constant of a prototype that took `taken` children so far, where
`pending` prototypes were left to take at its start. -/
def read (pending taken : Nat) : Reader Constant := do
  let tag ← Reader.leb32
  match ConstantKind.ofTag tag.toNat with
  | .child =>
    if taken < pending then return .child taken else Reader.fail fun _ => .noPrototypeLeft
  | .table => return .table (← Table.read)
  | .int64 => return .int64 (← Reader.word64).toInt64
  | .uint64 => return .uint64 (← Reader.word64)
  | .complex =>
    let re ← Reader.word64
    let im ← Reader.word64
    return .complex ⟨⟨re⟩, ⟨im⟩⟩
  | .string => return .string (← Reader.bytes (tag.toNat - 5))

/-- Reads `count` constants. Each child constant takes one more child. -/
def readAll (pending : Nat) : Nat → Nat → Reader (List Constant)
  | _, 0 => return []
  | taken, count + 1 => do
    let first ← read pending taken
    let others ← readAll pending (taken + first.childIndex?.toList.length) count
    return first :: others

def write (k : Constant) : Except Fault Bytes := do
  let tag ← Output.tag k.tag
  let payload ← match k with
    | child _ => .ok []
    | table t => t.write
    | int64 n => .ok (Output.word64 n.toUInt64)
    | uint64 n => .ok (Output.word64 n)
    | complex z => .ok (Output.word64 z.re.bits ++ Output.word64 z.im.bits)
    | string bytes => .ok bytes
  return tag ++ payload

end Constant

/-! ## Numbers -/

namespace NumberConstant

/-- The mark tells a double, whose high half follows, from an integer. -/
def read : Reader NumberConstant := do
  let (isDouble, low) ← Reader.marked
  if isDouble then
    let high ← Reader.leb32
    return .double ⟨Word.join low high⟩
  else return .int low.toInt32

def write : NumberConstant → Bytes
  | int n => Output.marked false n.toUInt32
  | double x =>
    let (low, high) := Word.halves x.bits
    Output.marked true low ++ Output.leb32 high

end NumberConstant

end BytecodeDump
