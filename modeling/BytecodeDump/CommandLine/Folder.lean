-- Surroundings without a machine: a folder of files, a text that comes in, and the texts
-- that go out. Around the folder is little more than a file that holds nothing.
import BytecodeDump.CommandLine.Run

namespace BytecodeDump

namespace CommandLine

/-- Directories and files by the names that lead to them from the root, and the directory
from which other paths start. The root itself is the directory without a name. -/
structure Folder where
  here : List String := []
  directories : List (List String) := []
  files : List (List String × Bytes) := []
  deriving DecidableEq

namespace Folder

/-! ## Limits -/

/-- The most bytes that a name may have. -/
def maxName : Nat := 255

/-- The most bytes that a path may have. -/
def maxPath : Nat := 4095

def checkName (name : String) : Except SystemError Unit :=
  if name.utf8ByteSize ≤ maxName then .ok () else .error .nameTooLong

def checkPath (path : String) : Except SystemError Unit :=
  if path.utf8ByteSize ≤ maxPath then .ok () else .error .nameTooLong

/-! ## Places -/

def isDirectory (f : Folder) (place : List String) : Bool :=
  place.isEmpty || f.directories.contains place

def file? (f : Folder) (place : List String) : Option Bytes := f.files.lookup place

/-- Where a path starts. -/
def start (f : Folder) (path : String) : List String :=
  if PathText.isAbsolute path then [] else f.here

/-- One step from a directory. A step up from the root stays there. -/
def step (f : Folder) (place : List String) (name : String) : Except SystemError (List String) :=
  if PathText.idle name then .ok place
  else if name = ".." then .ok place.dropLast
  else do
    checkName name
    if f.isDirectory (place ++ [name]) then return place ++ [name]
    else if (f.file? (place ++ [name])).isSome then throw .notADirectory
    else throw .notFound

/-- The directory that some names lead to. -/
def walk (f : Folder) (place : List String) (names : List String) :
    Except SystemError (List String) := names.foldlM f.step place

/-- The names in a path. -/
def names (path : String) : List String := (PathText.segments path).filter (· ≠ "")

/-- Whether a path ends in a slash, or in a name that stands for a directory. -/
def namesDirectory (path : String) : Bool :=
  path.toList.getLast? = some '/' || (names path).getLast?.any (· ∈ [".", ".."])

/-! ## Operations -/

/-- The bytes of a file. -/
def read (f : Folder) (path : String) : Except SystemError Bytes := do
  checkPath path
  match (names path).getLast? with
  | none => throw (if path.isEmpty then .notFound else .isADirectory)
  | some last =>
    let above ← f.walk (f.start path) (names path).dropLast
    if namesDirectory path then
      let _ ← f.step above last
      throw .isADirectory
    else
      checkName last
      match f.file? (above ++ [last]) with
      | some bytes => return bytes
      | none => throw (if f.isDirectory (above ++ [last]) then .isADirectory else .notFound)

/-- The folder with a directory for each of some names, one below the other from a place
on. -/
def makeBelow (f : Folder) (place : List String) : List String → Except SystemError Folder
  | [] => .ok f
  | name :: rest =>
    match f.step place name with
    | .ok place => f.makeBelow place rest
    | .error e =>
      if e = .notFound then
        let place := place ++ [name]
        makeBelow { f with directories := f.directories ++ [place] } place rest
      else .error (if e = .notADirectory && rest.all PathText.idle then .alreadyExists else e)

/-- The folder with a directory for each name of the path. -/
def makeDirectory (f : Folder) (path : String) : Except SystemError Folder := do
  checkPath path
  f.makeBelow (f.start path) (names path)

/-- The folder with a file written anew. -/
def write (f : Folder) (path : String) (bytes : Bytes) : Except SystemError Folder := do
  checkPath path
  match (names path).getLast? with
  | none => throw (if path.isEmpty then .notFound else .isADirectory)
  | some last =>
    let above ← f.walk (f.start path) (names path).dropLast
    if namesDirectory path then throw .isADirectory
    else
      checkName last
      if f.isDirectory (above ++ [last]) then throw .isADirectory
      else
        let others := f.files.filter (·.1 ≠ above ++ [last])
        return { f with files := others ++ [(above ++ [last], bytes)] }

/-- A folder with nothing in it, and the directories and the file around it. -/
def empty : Folder where
  here := ["tmp", "work"]
  directories := [["dev"], ["tmp"], ["tmp", "work"]]
  files := [(["dev", "null"], [])]

/-- The folder with these files in it, and the directories that they need. -/
def ofFiles (files : List (String × Bytes)) : Folder :=
  files.foldl (fun f (path, bytes) =>
    let f := match (PathText.parent? path).filter (· ≠ "") with
      | some parent => (f.makeDirectory parent).toOption.getD f
      | none => f
    ((f.write path bytes).toOption).getD f) empty

end Folder

/-! ## Runs in a folder -/

/-- Where a run in a folder stands. -/
structure Session where
  folder : Folder
  input : Bytes := []
  output : String := ""
  errors : String := ""
  deriving DecidableEq

namespace Session

/-- Changes the folder, if that succeeds. -/
def change (f : Folder → Except SystemError Folder) :
    StateM Session (Except SystemError Unit) := do
  let s ← get
  match f s.folder with
  | .ok folder => set { s with folder }; return .ok ()
  | .error e => return .error e

/-- The surroundings of a run in a folder. No time passes there. -/
def host : Host (StateM Session) where
  input := return (← get).input
  readFile path := return (← get).folder.read path
  makeDirectory path := change (·.makeDirectory path)
  writeFile path bytes := change (·.write path bytes)
  print text := modify fun s => { s with output := s.output ++ text }
  report text := modify fun s => { s with errors := s.errors ++ text }
  elapsed := return "0 ms"

/-- Runs the tool: its exit status, and what is there after it. -/
def run (s : Session) (args : List String) : UInt32 × Session :=
  (CommandLine.run host args).run s

end Session

end CommandLine

end BytecodeDump
