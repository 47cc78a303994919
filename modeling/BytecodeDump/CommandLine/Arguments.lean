-- The arguments of the tool. Options may stand before, between and after the inputs;
-- after two dashes alone everything is an input. An option that is given twice is refused,
-- and only the one for more words may be repeated.

namespace BytecodeDump

namespace CommandLine

/-- When the summary is in colour. -/
inductive Color where
  | auto | always | never
  deriving DecidableEq, Repr

namespace Color

def ofName? : String → Option Color
  | "auto" => some auto
  | "always" => some always
  | "never" => some never
  | _ => none

end Color

/-- What the arguments ask for. -/
structure Options where
  inputs : List String := []
  disasm : Bool := false
  compact : Bool := false
  emit : Option String := none
  json : Bool := false
  summary : Bool := false
  verify : Bool := false
  strip : Bool := false
  out : Option String := none
  stdinName : Option String := none
  time : Bool := false
  verbose : Nat := 0
  color : Option Color := none
  deriving DecidableEq, Repr

/-- What a run is for. -/
inductive Request where
  | inspect (options : Options)
  | help
  | version
  deriving DecidableEq, Repr

/-- Why the arguments are refused. -/
inductive UsageError where
  | unknownOption (name : String)
  | repeatedOption (name : String)
  | missingValue (name : String)
  | unexpectedValue (name : String)
  | unknownColor (value : String)
  | stripWithoutOut
  deriving DecidableEq, Repr

namespace UsageError

def message : UsageError → String
  | unknownOption name => "unexpected argument '" ++ name ++ "' found"
  | repeatedOption name => "the argument '" ++ name ++ "' cannot be used multiple times"
  | missingValue name => "a value is required for '" ++ name ++ "' but none was supplied"
  | unexpectedValue name => "unexpected value for '" ++ name ++ "' found"
  | unknownColor value => "invalid value '" ++ value ++ "' for '--color'"
  | stripWithoutOut => "'--strip' requires '--out'"

end UsageError

namespace Options

/-! ## Single options -/

/-- Sets an option without a value, once. -/
def setFlag (o : Options) (name : String) : Except UsageError Options :=
  let once (given : Bool) (o : Options) : Except UsageError Options :=
    if given then .error (.repeatedOption name) else .ok o
  match name with
  | "--disasm" => once o.disasm { o with disasm := true }
  | "--compact" => once o.compact { o with compact := true }
  | "--json" => once o.json { o with json := true }
  | "--summary" => once o.summary { o with summary := true }
  | "--verify" => once o.verify { o with verify := true }
  | "--strip" => once o.strip { o with strip := true }
  | "--time" => once o.time { o with time := true }
  | "--verbose" => .ok { o with verbose := o.verbose + 1 }
  | _ => .error (.unknownOption name)

/-- Whether the option takes a value. -/
def takesValue (name : String) : Bool := name ∈ ["--emit", "--out", "--stdin-name", "--color"]

/-- Sets an option with a value, once. -/
def setValue (o : Options) (name value : String) : Except UsageError Options :=
  let once (given : Bool) (o : Options) : Except UsageError Options :=
    if given then .error (.repeatedOption name) else .ok o
  match name with
  | "--emit" => once o.emit.isSome { o with emit := some value }
  | "--out" => once o.out.isSome { o with out := some value }
  | "--stdin-name" => once o.stdinName.isSome { o with stdinName := some value }
  | "--color" => match Color.ofName? value with
    | some color => once o.color.isSome { o with color := some color }
    | none => .error (.unknownColor value)
  | _ => .error (.unknownOption name)

/-- The options with one more input. -/
def addInput (o : Options) (input : String) : Options := { o with inputs := o.inputs ++ [input] }

/-! ## All arguments -/

/-- Options of one letter after a single dash. -/
def letters (o : Options) : List Char → Except UsageError (Options ⊕ Request)
  | [] => .ok (.inl o)
  | 'v' :: rest => letters { o with verbose := o.verbose + 1 } rest
  | 'h' :: _ => .ok (.inr .help)
  | 'V' :: _ => .ok (.inr .version)
  | c :: _ => .error (.unknownOption ("-" ++ c.toString))

/-- Whether an argument is an option and no value: it begins with a dash, and is not a
dash alone. -/
def looksLikeOption (arg : String) : Bool :=
  match arg.toList with
  | '-' :: _ :: _ => true
  | _ => false

/-- The name of a long option, and the value after an equals sign. -/
def nameAndValue (arg : String) : String × Option String :=
  let cs := arg.toList
  let name := String.ofList (cs.takeWhile (· ≠ '='))
  match cs.dropWhile (· ≠ '=') with
  | [] => (name, none)
  | _ :: value => (name, some (String.ofList value))

/-- The request once all arguments are taken. -/
def finish (o : Options) : Except UsageError Request :=
  if o.strip && o.out.isNone then .error .stripWithoutOut else .ok (.inspect o)

/-- Takes the arguments one after the other. A request for help or for the version ends
this at once. -/
def parse (o : Options) : List String → Except UsageError Request
  | [] => o.finish
  | "--" :: rest => { o with inputs := o.inputs ++ rest }.finish
  | arg :: rest =>
    if arg.startsWith "--" then
      match nameAndValue arg, rest with
      | ("--help", none), _ => .ok .help
      | ("--version", none), _ => .ok .version
      | (name, some value), rest =>
        if takesValue name then do (← o.setValue name value).parse rest
        else do
          let _ ← if name ∈ ["--help", "--version"] then pure o else o.setFlag name
          throw (.unexpectedValue name)
      | (name, none), rest =>
        if takesValue name then
          match rest with
          | value :: rest =>
            if looksLikeOption value then .error (.missingValue name)
            else do (← o.setValue name value).parse rest
          | [] => .error (.missingValue name)
        else do (← o.setFlag name).parse rest
    else if looksLikeOption arg then do
      match ← o.letters (arg.toList.drop 1) with
      | .inl o => o.parse rest
      | .inr request => return request
    else (o.addInput arg).parse rest

end Options

/-- What the arguments ask for. -/
def Request.ofArguments (args : List String) : Except UsageError Request :=
  ({} : Options).parse args

end CommandLine

end BytecodeDump
