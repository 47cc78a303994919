-- What the tool does with one input: the effects in their order, worked out from the
-- bytes and the options alone. A failure is the last effect that counts.
import BytecodeDump.CommandLine.Arguments
import BytecodeDump.CommandLine.Host
import BytecodeDump.CommandLine.PathText
import BytecodeDump.Json.Script
import BytecodeDump.Json.Summary
import BytecodeDump.Listing
import BytecodeDump.Opcode.InstructionSet
import BytecodeDump.Wire.Dump

namespace BytecodeDump

namespace CommandLine

namespace Inspection

/-! ## Colours -/

/-- A text between the codes that set and reset a colour. -/
def paint (color : Bool) (code text : String) : String :=
  if color then "\x1b[" ++ code ++ "m" ++ text ++ "\x1b[0m" else text

/-- Whether anything is coloured. -/
def colored (o : Options) : Bool := o.color ≠ some .never

/-! ## Parts -/

/-- The title of the summary. -/
def title (name : String) : String :=
  "== " ++ (PathText.fileName? name).getD "<stdin>" ++ " =="

/-- The summary: a title, and a point before each line. -/
def summary (o : Options) (name : String) (script : Script) : List Effect :=
  if o.summary then
    .report (paint (colored o) "1;36" (title name))
      :: (Text.lines (Summary.ofScript script).text).map fun line =>
        .report (paint (colored o) "34" "•" ++ " " ++ line)
  else []

/-- The listing that the options choose. -/
def listingText (o : Options) (script : Script) : String :=
  if o.compact then Listing.compact .builtin script else Listing.full .builtin script

/-- The listing, in a file or on the output. -/
def listing (o : Options) (script : Script) : List Effect :=
  match o.emit with
  | some path =>
    [.write path (Utf8.encode (listingText o script)), .report ("📝 Disasm → " ++ path)]
  | none => if o.disasm then [.print (listingText o script ++ "\n")] else []

/-- The name, the summary and the script as JSON. -/
def json (o : Options) (name : String) (script : Script) : List Effect :=
  if o.json then
    let view : Json.Value := .record
      [("file", .text name), ("summary", (Summary.ofScript script).toJson),
        ("script", script.toJson)]
    [.print (view.pretty 0 ++ "\n")]
  else []

/-- The failure of writing a dump that was read. -/
def encodeFailure (name : String) (fault : Fault) : Effect :=
  .fail ("Ré-encodage échoué: " ++ name ++ ": " ++ fault.message)

/-- How many bytes at the front of two strings of bytes are the same. -/
def commonLength : Bytes → Bytes → Nat
  | a :: as, b :: bs => if a = b then commonLength as bs + 1 else 0
  | _, _ => 0

/-- Compares the input with what is written for its script. -/
def verify (o : Options) (name : String) (bytes : Bytes) (script : Script) : List Effect :=
  if o.verify then
    match script.encode .builtin with
    | .error fault => [encodeFailure name fault]
    | .ok again =>
      if again = bytes then [.report (paint (colored o) "32" "✓ verify round-trip OK")]
      else [.fail ("round-trip divergent (" ++ name ++ "): premier écart à l'octet "
        ++ toString (commonLength again bytes) ++ " (" ++ toString again.length ++ " vs "
        ++ toString bytes.length ++ " octets)")]
  else []

/-- Writes the script without what is there for debugging. -/
def strip (o : Options) (name : String) (bytes : Bytes) (script : Script) : List Effect :=
  match o.strip, o.out with
  | true, some path =>
    match script.stripDebug.encode .builtin with
    | .error fault => [encodeFailure name fault]
    | .ok stripped =>
      [.write path stripped,
        .report ("✂️  Strip → " ++ path ++ " (" ++ toString bytes.length ++ " → "
          ++ toString stripped.length ++ " octets)")]
  | _, _ => []

/-- The time that the work took. -/
def time (o : Options) : List Effect := if o.time then [.time] else []

end Inspection

/-- Everything that is done with one input. -/
def inspect (o : Options) (name : String) (bytes : Bytes) : List Effect :=
  match Script.decode .builtin bytes with
  | .error fault => [.fail ("Décodage échoué: " ++ name ++ ": " ++ fault.message)]
  | .ok script =>
    Inspection.summary o name script ++ Inspection.listing o script
      ++ Inspection.json o name script ++ Inspection.verify o name bytes script
      ++ Inspection.strip o name bytes script ++ Inspection.time o

end CommandLine

end BytecodeDump
