-- JSON values as text, without any blank or on lines of their own.
import BytecodeDump.Json.Value

namespace BytecodeDump

namespace Json

namespace Piece

/-- Sixteen bits as four digits of base 16. -/
def hex4 (n : Nat) : String := Text.padLeft '0' 4 (Text.hex n)

/-- How a part of a string is written: quotes, backslashes and controls as escapes. -/
def write : Piece → String
  | unit bits => "\\u" ++ hex4 bits.toNat
  | char '"' => "\\\""
  | char '\\' => "\\\\"
  | char '\x08' => "\\b"
  | char '\x0C' => "\\f"
  | char '\n' => "\\n"
  | char '\r' => "\\r"
  | char '\t' => "\\t"
  | char c => if c.toNat < 0x20 then "\\u" ++ hex4 c.toNat else c.toString

/-- A string in quotes. -/
def quote (pieces : List Piece) : String := "\"" ++ String.join (pieces.map write) ++ "\""

end Piece

namespace Value

/-- Signs of exponents are always written. -/
def numberText (n : Numeral) : String := n.text true

mutual

/-- The value without any blank. -/
def compact : Value → String
  | null => "null"
  | bool value => if value then "true" else "false"
  | number value => numberText value
  | string pieces => Piece.quote pieces
  | array items => "[" ++ ",".intercalate (compactItems items) ++ "]"
  | object fields => "\x7b" ++ ",".intercalate (compactFields fields) ++ "\x7d"

def compactItems : List Value → List String
  | [] => []
  | v :: vs => compact v :: compactItems vs

def compactFields : List (List Piece × Value) → List String
  | [] => []
  | (name, v) :: fields => (Piece.quote name ++ ":" ++ compact v) :: compactFields fields

end

/-- A new line with two blanks for each level. -/
def newLine (level : Nat) : String := "\n" ++ String.ofList (List.replicate (2 * level) ' ')

/-- Entries between brackets, each on a line of its own, one level further in. -/
def block (level : Nat) (opening closing : String) (entries : List String) : String :=
  if entries.isEmpty then opening ++ closing
  else opening ++ newLine (level + 1) ++ ("," ++ newLine (level + 1)).intercalate entries
    ++ newLine level ++ closing

mutual

/-- The value with each of its parts on a line of its own. -/
def pretty (level : Nat) : Value → String
  | null => "null"
  | bool value => if value then "true" else "false"
  | number value => numberText value
  | string pieces => Piece.quote pieces
  | array items => block level "[" "]" (prettyItems level items)
  | object fields => block level "\x7b" "\x7d" (prettyFields level fields)

def prettyItems (level : Nat) : List Value → List String
  | [] => []
  | v :: vs => pretty (level + 1) v :: prettyItems level vs

def prettyFields (level : Nat) : List (List Piece × Value) → List String
  | [] => []
  | (name, v) :: fields =>
    (Piece.quote name ++ ": " ++ pretty (level + 1) v) :: prettyFields level fields

end

end Value

end Json

end BytecodeDump
