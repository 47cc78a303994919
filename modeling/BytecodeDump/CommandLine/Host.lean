-- What a run of the tool asks of its surroundings, and what it does there: texts on the
-- two outputs, and files.
import BytecodeDump.Bytes.Endian

namespace BytecodeDump

namespace CommandLine

/-- An error of the system: its number and its text. -/
structure SystemError where
  code : Nat
  text : String
  deriving DecidableEq, Repr

namespace SystemError

def notFound : SystemError := ⟨2, "No such file or directory"⟩

def permissionDenied : SystemError := ⟨13, "Permission denied"⟩

def alreadyExists : SystemError := ⟨17, "File exists"⟩

def notADirectory : SystemError := ⟨20, "Not a directory"⟩

def isADirectory : SystemError := ⟨21, "Is a directory"⟩

def nameTooLong : SystemError := ⟨36, "File name too long"⟩

/-- The errors whose text is known. -/
def known : List SystemError :=
  [notFound, permissionDenied, alreadyExists, notADirectory, isADirectory, nameTooLong]

/-- The error with a number, which some calls give with the other sign. Details are the
text of an error that is not known. -/
def ofCode (code : UInt32) (details : String) : SystemError :=
  let number := code.toInt32.toInt.natAbs
  (known.find? (·.code = number)).getD ⟨number, details⟩

/-- The text with the number after it. -/
def message (e : SystemError) : String := e.text ++ " (os error " ++ toString e.code ++ ")"

end SystemError

/-- The surroundings of a run. -/
structure Host (m : Type → Type) where
  /-- All that comes in on the standard input. -/
  input : m Bytes
  readFile : String → m (Except SystemError Bytes)
  /-- Makes a directory, and those above it that are missing. -/
  makeDirectory : String → m (Except SystemError Unit)
  /-- Writes a file anew. -/
  writeFile : String → Bytes → m (Except SystemError Unit)
  /-- Writes to the standard output. -/
  print : String → m Unit
  /-- Writes to the standard error output. -/
  report : String → m Unit
  /-- How long the work on the present input took, as text. -/
  elapsed : m String

/-- One thing that a run does. -/
inductive Effect where
  /-- A text on the standard output. -/
  | print (text : String)
  /-- A line on the standard error output. -/
  | report (line : String)
  /-- A file with these bytes. -/
  | write (path : String) (bytes : Bytes)
  /-- A line that says how long the work took. -/
  | time
  /-- The end of the run, for this reason. -/
  | fail (reason : String)
  deriving DecidableEq

end CommandLine

end BytecodeDump
