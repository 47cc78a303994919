-- A whole run of the tool: the arguments, the inputs one after the other, and the exit
-- status. The first failure ends the run; what was done before it stays.
import BytecodeDump.CommandLine.Inspection

namespace BytecodeDump

namespace CommandLine

/-! ## Fixed texts -/

/-- The name of the tool. -/
def toolName : String := "ljbc-dump"

/-- The number of the release. -/
def release : String := "0.1.0"

/-- A tool with the release of what it is built on. -/
def banner (tool : String) : String := tool ++ " (ljbc-tools " ++ release ++ ")"

def versionText : String := toolName ++ " " ++ release ++ "\n"

/-- How the tool is called. -/
def usage : String := "Usage: " ++ toolName ++ " [OPTIONS] [INPUTS]...\n"

def helpText : String :=
  "Inspecteur de bytecode LuaJIT (v2) -> texte/JSON\n\n" ++ usage ++ "\n"
    ++ "Options:\n"
    ++ "      --disasm             Affiche le désassemblage sur stdout\n"
    ++ "      --compact            Vue compacte (1 ligne par instruction)\n"
    ++ "      --emit <EMIT>        Écrit le désassemblage dans un fichier (si 1 entrée)\n"
    ++ "      --json               Affiche le script complet en JSON sur stdout\n"
    ++ "      --summary            Résumé rapide sur stderr\n"
    ++ "      --verify             Ré-encode et compare aux octets d'origine\n"
    ++ "      --strip              Retire les infos de debug et écrit le résultat dans --out\n"
    ++ "      --out <OUT>          Fichier de sortie pour --strip\n"
    ++ "      --stdin-name <NAME>  Nom logique quand l'entrée est '-' (stdin)\n"
    ++ "      --time               Affiche la durée de traitement\n"
    ++ "  -v, --verbose            Verbosité des logs (-v, -vv, -vvv)\n"
    ++ "      --color <COLOR>      Couleurs du résumé: auto|always|never\n"
    ++ "  -h, --help               Print help\n"
    ++ "  -V, --version            Print version\n"

/-! ## Effects -/

section

variable {m : Type → Type} [Monad m]

/-- Makes the directory of a file where it is missing. -/
def makeParent (host : Host m) (path : String) : m (Except String Unit) := do
  match (PathText.parent? path).filter (· ≠ "") with
  | none => return .ok ()
  | some parent =>
    match ← host.makeDirectory parent with
    | .ok () => return .ok ()
    | .error e => return .error ("création " ++ parent ++ ": " ++ e.message)

/-- Writes a file, in a directory that is made where it is missing. -/
def writeOutput (host : Host m) (path : String) (bytes : Bytes) : m (Except String Unit) := do
  match ← makeParent host path with
  | .error reason => return .error reason
  | .ok () => match ← host.writeFile path bytes with
    | .ok () => return .ok ()
    | .error e => return .error ("écriture " ++ path ++ ": " ++ e.message)

/-- Does one thing, or says why it failed. -/
def perform (host : Host m) : Effect → m (Except String Unit)
  | .print text => do host.print text; return .ok ()
  | .report line => do host.report (line ++ "\n"); return .ok ()
  | .write path bytes => writeOutput host path bytes
  | .time => do host.report ("⏱️  " ++ (← host.elapsed) ++ "\n"); return .ok ()
  | .fail reason => return .error reason

/-- Does one thing after the other up to the first failure. -/
def performAll (host : Host m) : List Effect → m (Except String Unit)
  | [] => return .ok ()
  | effect :: rest => do
    match ← perform host effect with
    | .ok () => performAll host rest
    | .error reason => return .error reason

/-! ## Inputs -/

/-- The input that stands for the standard input. -/
def standardInput : String := "-"

/-- One input of a file. -/
def inspectFile (host : Host m) (o : Options) (path : String) : m (Except String Unit) := do
  if path = standardInput then return .error "'-' (stdin) doit être l'unique entrée"
  else match ← host.readFile path with
    | .ok bytes => performAll host (inspect o path bytes)
    | .error e => return .error ("lecture " ++ path ++ ": " ++ e.message)

/-- One input after the other up to the first failure. -/
def inspectFiles (host : Host m) (o : Options) : List String → m (Except String Unit)
  | [] => return .ok ()
  | path :: rest => do
    match ← inspectFile host o path with
    | .ok () => inspectFiles host o rest
    | .error reason => return .error reason

/-- All inputs of a run. -/
def inspectAll (host : Host m) (o : Options) : m (Except String Unit) := do
  if o.inputs.isEmpty then
    return .error ("Aucune entrée. Exemple: " ++ toolName ++ " a.ljbc --disasm")
  else if 1 < o.inputs.length && (o.emit.isSome || o.out.isSome) then
    return .error "Plusieurs entrées → --emit / --out n'acceptent qu'une seule entrée"
  else if o.inputs = [standardInput] then
    let bytes ← host.input
    performAll host (inspect o (o.stdinName.getD "<stdin>") bytes)
  else inspectFiles host o o.inputs

/-- The run, and its exit status: 1 for a failure, 2 for arguments that are refused. -/
def run (host : Host m) (args : List String) : m UInt32 := do
  match Request.ofArguments args with
  | .error e =>
    host.report ("error: " ++ e.message ++ "\n\n" ++ usage)
    return 2
  | .ok .help =>
    host.print helpText
    return 0
  | .ok .version =>
    host.print versionText
    return 0
  | .ok (.inspect o) =>
    match ← inspectAll host o with
    | .ok () => return 0
    | .error reason =>
      host.report ("❌ " ++ reason ++ "\n")
      return 1

end

end CommandLine

end BytecodeDump
