-- Texts in parts: between marks, without blanks at the ends, and in lines.
import BytecodeDump.Text.Property

namespace BytecodeDump

namespace Text

/-- The parts of a text between the characters `mark`; there is one more than marks. -/
def split (mark : Char) : List Char → List (List Char)
  | [] => [[]]
  | c :: cs =>
    if c = mark then [] :: split mark cs
    else match split mark cs with
      | [] => [[c]]
      | part :: parts => (c :: part) :: parts

/-- The characters without white space at either end. -/
def trim (cs : List Char) : List Char :=
  let start := cs.dropWhile whiteSpace.has
  (start.reverse.dropWhile whiteSpace.has).reverse

/-- A line that was ended, without the carriage return before its end. -/
def endedLine (cs : List Char) : List Char :=
  if cs.getLast? = some '\r' then cs.dropLast else cs

/-- The lines of a text. The last one need not be ended, and counts only if it holds
something. -/
def lines (text : String) : List String :=
  let parts := split '\n' text.toList
  let last := parts.getLast?.getD []
  (parts.dropLast.map endedLine ++ if last.isEmpty then [] else [last]).map String.ofList

end Text

end BytecodeDump
