-- Text as JSON values. A step takes a value off the front of the characters; what it
-- gives back is what follows.
import BytecodeDump.Json.Value

namespace BytecodeDump

namespace Json

namespace Parser

/-! ## Blanks, digits and strings -/

def isBlank (c : Char) : Bool := c = ' ' || c = '\n' || c = '\t' || c = '\r'

/-- The characters after any blanks. -/
def skip (cs : List Char) : List Char := cs.dropWhile isBlank

/-- The characters after a word that has to come first. -/
def word? (word : List Char) (cs : List Char) : Option (List Char) :=
  if word.isPrefixOf cs then some (cs.drop word.length) else none

/-- The digits at the front, and what follows. -/
def digits (cs : List Char) : List Nat × List Char :=
  ((cs.takeWhile Char.isDigit).map fun c => c.toNat - '0'.toNat, cs.dropWhile Char.isDigit)

/-- At least one digit. -/
def digits? (cs : List Char) : Option (List Nat × List Char) :=
  let (ds, rest) := digits cs
  if ds.isEmpty then none else some (ds, rest)

/-- The number that digits spell. -/
def value (ds : List Nat) : Nat := ds.foldl (fun n d => 10 * n + d) 0

/-- The sixteen bits of four digits of base 16. -/
def unit? (a b c d : Char) : Option UInt16 := (Text.hexValue? [a, b, c, d]).map UInt16.ofNat

/-- The character of an escape of one letter. -/
def escape? : Char → Option Char
  | '"' => some '"'
  | '\\' => some '\\'
  | '/' => some '/'
  | 'b' => some '\x08'
  | 'f' => some '\x0C'
  | 'n' => some '\n'
  | 'r' => some '\r'
  | 't' => some '\t'
  | _ => none

/-- The parts of a string up to its closing quote. Controls have to be escaped. -/
def string? : List Char → Option (List Piece × List Char)
  | [] => none
  | '"' :: rest => some ([], rest)
  | '\\' :: 'u' :: a :: b :: c :: d :: rest => do
    let bits ← unit? a b c d
    let (pieces, after) ← string? rest
    return (.unit bits :: pieces, after)
  | '\\' :: c :: rest => do
    let c ← escape? c
    let (pieces, after) ← string? rest
    return (.char c :: pieces, after)
  | c :: rest =>
    if c.toNat < 0x20 then none
    else do
      let (pieces, after) ← string? rest
      return (.char c :: pieces, after)

/-! ## Numbers -/

/-- The whole digits: a zero alone, or digits of which the first is no zero. -/
def whole? : List Char → Option (Nat × List Char)
  | '0' :: rest => if (rest.head?.all Char.isDigit && !rest.isEmpty) then none else some (0, rest)
  | cs => (digits? cs).map fun (ds, rest) => (value ds, rest)

/-- The digits after a point, where there is one. -/
def fraction? : List Char → Option (List Nat × List Char)
  | '.' :: rest => digits? rest
  | cs => some ([], cs)

/-- The exponent, where there is one. -/
def exponent? : List Char → Option (Option Int × List Char)
  | c :: rest =>
    if c = 'e' ∨ c = 'E' then
      let (negative, rest) := match rest with
        | '-' :: rest => (true, rest)
        | '+' :: rest => (false, rest)
        | rest => (false, rest)
      (digits? rest).map fun (ds, rest) =>
        (some (if negative then -(value ds : Int) else value ds), rest)
    else some (none, c :: rest)
  | [] => some (none, [])

/-- A number after its sign. -/
def number? (negative : Bool) (cs : List Char) : Option (Value × List Char) := do
  let (whole, rest) ← whole? cs
  let (fraction, rest) ← fraction? rest
  let (exponent, rest) ← exponent? rest
  return (.number { negative, whole, fraction, exponent }, rest)

/-! ## Values -/

mutual

/-- A value. A level takes two steps and has two brackets, and a further item takes one
step and a comma, so with more steps than characters the steps never run out. -/
def value? : Nat → List Char → Option (Value × List Char)
  | 0, _ => none
  | steps + 1, cs =>
    match cs with
    | '[' :: rest => match skip rest with
      | ']' :: rest => some (.array [], rest)
      | rest => (items? steps rest).map fun (vs, rest) => (.array vs, rest)
    | '\x7b' :: rest => match skip rest with
      | '\x7d' :: rest => some (.object [], rest)
      | rest => (fields? steps rest).map fun (fs, rest) => (.object fs, rest)
    | '"' :: rest => (string? rest).map fun (pieces, rest) => (.string pieces, rest)
    | '-' :: rest => number? true rest
    | 'n' :: _ => (word? "null".toList cs).map (.null, ·)
    | 't' :: _ => (word? "true".toList cs).map (.bool true, ·)
    | 'f' :: _ => (word? "false".toList cs).map (.bool false, ·)
    | _ => number? false cs

/-- The items of an array up to its closing bracket. -/
def items? : Nat → List Char → Option (List Value × List Char)
  | 0, _ => none
  | steps + 1, cs => do
    let (v, rest) ← value? steps cs
    match skip rest with
    | ',' :: rest =>
      let (vs, rest) ← items? steps (skip rest)
      return (v :: vs, rest)
    | ']' :: rest => return ([v], rest)
    | _ => none

/-- The fields of an object up to its closing brace. -/
def fields? : Nat → List Char → Option (List (List Piece × Value) × List Char)
  | 0, _ => none
  | steps + 1, cs => do
    let '"' :: rest := cs | none
    let (name, rest) ← string? rest
    let ':' :: rest := skip rest | none
    let (v, rest) ← value? steps (skip rest)
    match skip rest with
    | ',' :: rest =>
      let (fs, rest) ← fields? steps (skip rest)
      return ((name, v) :: fs, rest)
    | '\x7d' :: rest => return ([(name, v)], rest)
    | _ => none

end

end Parser

/-- The value of a text that holds nothing else but blanks. -/
def Value.parse? (text : String) : Option Value := do
  let cs := text.toList
  let (v, rest) ← Parser.value? (cs.length + 1) (Parser.skip cs)
  if (Parser.skip rest).isEmpty then some v else none

end Json

end BytecodeDump
