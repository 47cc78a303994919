-- A text in double quotes, on one line and in visible characters: what does not
-- print, and what joins the character before it, is written by its code point.
import BytecodeDump.Text.Digits
import BytecodeDump.Text.Property

namespace BytecodeDump

namespace Text

namespace Quoted

/-- Whether the character is shown by its code point. Below U+007F only the controls are. -/
def hidden (c : Char) : Bool :=
  if c.toNat < 0x7F then c.toNat < 0x20 else unprintable.has c || extendingMarks.has c

/-- How one character is written. -/
def escape (c : Char) : String :=
  match c with
  | '\x00' => "\\0"
  | '\t' => "\\t"
  | '\r' => "\\r"
  | '\n' => "\\n"
  | '\\' => "\\\\"
  | '"' => "\\\""
  | c => if hidden c then "\\u\x7b" ++ hex c.toNat ++ "\x7d" else c.toString

end Quoted

/-- The text in quotes. -/
def quote (text : String) : String :=
  "\"" ++ String.join (text.toList.map Quoted.escape) ++ "\""

/-- A long text is quoted up to its first `limit` characters, and a mark for the rest
follows. -/
def quoteUpTo (limit : Nat) (text : String) : String :=
  if text.length ≤ limit then quote text
  else quote (String.ofList (text.toList.take limit)) ++ "…"

end Text

end BytecodeDump
