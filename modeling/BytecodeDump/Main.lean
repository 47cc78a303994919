-- The tool on a real machine.
import BytecodeDump.CommandLine.Run
import BytecodeDump.Duration

namespace BytecodeDump

namespace CommandLine

/-- The number and the text of an error of the system. -/
def SystemError.ofIO : IO.Error → SystemError
  | .noFileOrDirectory _ code details | .permissionDenied _ code details
  | .alreadyExists _ code details | .inappropriateType _ code details
  | .invalidArgument _ code details | .resourceExhausted _ code details
  | .otherError code details => .ofCode code details
  | e => ⟨0, toString e⟩

/-- What an action gives, or its error. -/
def attempt {α : Type} (action : IO α) : IO (Except SystemError α) := do
  try return .ok (← action)
  catch e => return .error (.ofIO e)

/-- Whether a path leads to a directory. -/
def isDirectory (path : String) : IO Bool := do
  try (← IO.FS.realPath path).isDir
  catch _ => return false

/-- Makes a directory, or does nothing where there is one. -/
def makeDirectory (path : String) : IO (Except SystemError Unit) := do
  match ← attempt (IO.FS.createDir path) with
  | .ok () => return .ok ()
  | .error e => return if ← isDirectory path then .ok () else .error e

/-- Makes a directory. Where the one above it is missing, that one is made first, and so on
at most `levels` up. -/
def makeDirectories (path : String) : (levels : Nat) → IO (Except SystemError Unit)
  | 0 => makeDirectory path
  | levels + 1 => do
    let made ← makeDirectory path
    match made, (PathText.parent? path).filter (· ≠ "") with
    | .error e, some above =>
      if e = .notFound then
        match ← makeDirectories above levels with
        | .ok () => makeDirectory path
        | .error e => return .error e
      else return made
    | _, _ => return made

/-- The surroundings of a run on a machine; `start` is when the work began. -/
def machine (start : IO.Ref Nat) : Host IO where
  input := return (← (← IO.getStdin).readBinToEnd).toList
  readFile path := attempt do
    let bytes ← IO.FS.readBinFile path
    start.set (← IO.monoNanosNow)
    return bytes.toList
  makeDirectory path := makeDirectories path path.length
  writeFile path bytes := attempt (IO.FS.writeBinFile path ⟨bytes.toArray⟩)
  print text := do
    let out ← IO.getStdout
    out.putStr text
    out.flush
  report text := IO.eprint text
  elapsed := do
    let nanos := (← IO.monoNanosNow) - (← start.get)
    return Duration.text ⟨.ofNat (nanos / 1000000000), .ofNat (nanos % 1000000000)⟩

end CommandLine

end BytecodeDump

/-- Runs the tool with the arguments it was called with. -/
def main (args : List String) : IO UInt32 := do
  let start ← IO.mkRef (← IO.monoNanosNow)
  BytecodeDump.CommandLine.run (BytecodeDump.CommandLine.machine start) args
