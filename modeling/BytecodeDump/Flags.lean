-- Flag words: some bits have names, and the others are kept. As text a word is the
-- names of its bits, and then one number for the bits without a name.
import BytecodeDump.Text.Digits
import BytecodeDump.Text.Split

namespace BytecodeDump

namespace Flags

/-- The named bits, in the order in which they are shown. -/
abbrev Names := List (String × Nat)

/-! ## As text -/

/-- The names of the bits that are set, then the other bits in base 16. -/
def parts (names : Names) (bits : Nat) : List String :=
  let named := names.filter fun (_, bit) => bits &&& bit = bit
  let known := named.foldl (fun sum (_, bit) => sum ||| bit) 0
  let others := bits ^^^ known
  named.map (·.1) ++ if others = 0 then [] else ["0x" ++ Text.hex others]

/-- The parts with a bar between them; nothing for no flags. -/
def text (names : Names) (bits : Nat) : String := " | ".intercalate (parts names bits)

/-- The text in brackets after the name of the flag word; a zero for no flags. -/
def described (word : String) (names : Names) (bits : Nat) : String :=
  word ++ "(" ++ (if bits = 0 then "0x0" else text names bits) ++ ")"

/-! ## From text -/

/-- A number in base 16 below a bound; a plus sign may stand before it. -/
def number? (bound : Nat) (cs : List Char) : Option Nat := do
  let digits := if cs.head? = some '+' then cs.tail else cs
  if digits.isEmpty then none
  else
    let value ← Text.hexValue? digits
    if value < bound then some value else none

/-- The bits of one part: a number after `0x`, or else a name. -/
def part? (names : Names) (bound : Nat) : List Char → Option Nat
  | '0' :: 'x' :: cs => number? bound cs
  | cs => names.lookup (String.ofList cs)

/-- The bits of a text, each number in it below a bound. A blank text has none, and no
part may be blank. -/
def ofText? (names : Names) (bound : Nat) (text : String) : Option Nat :=
  let cs := Text.trim text.toList
  if cs.isEmpty then some 0
  else (Text.split '|' cs).foldlM
    (fun bits part => (part? names bound (Text.trim part)).map (bits ||| ·)) 0

end Flags

/-! ## The flags of a dump -/

/-- The flags in the header of a dump. -/
structure ScriptFlags where
  bits : UInt32
  deriving DecidableEq, Repr

namespace ScriptFlags

/-- Integers of a fixed width have their high byte first. -/
def bigEndian : UInt32 := 1

/-- The dump has neither a chunk name nor debug blocks. -/
def stripDebug : UInt32 := 2

def names : Flags.Names := [("BIG_ENDIAN", 1), ("STRIP_DEBUG", 2), ("USE_FFI", 4)]

def has (f : ScriptFlags) (bit : UInt32) : Bool := f.bits &&& bit = bit

def insert (f : ScriptFlags) (bit : UInt32) : ScriptFlags := ⟨f.bits ||| bit⟩

end ScriptFlags

/-! ## The flags of a prototype -/

/-- The flags of a prototype. -/
structure PrototypeFlags where
  bits : UInt8
  deriving DecidableEq, Repr

namespace PrototypeFlags

/-- Some of the constants are children. -/
def hasChildren : UInt8 := 1

/-- The function takes more arguments than it names. -/
def vararg : UInt8 := 2

def names : Flags.Names :=
  [("HAS_CHILDREN", 1), ("VARARG", 2), ("FFI_CONSTANTS", 4), ("NO_JIT", 8), ("HAVE_ILOOP", 16)]

def has (f : PrototypeFlags) (bit : UInt8) : Bool := f.bits &&& bit = bit

def insert (f : PrototypeFlags) (bit : UInt8) : PrototypeFlags := ⟨f.bits ||| bit⟩

end PrototypeFlags

end BytecodeDump
