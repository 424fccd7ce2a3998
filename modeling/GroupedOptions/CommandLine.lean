import GroupedOptions.Config.OfJson
import GroupedOptions.OptionSet
import GroupedOptions.Shell

/-!
# The command line

Three commands work on a configuration or a group: one parses arguments into a
shell script, one reports whether a token matches, one prints the fields of a
group. What a command line asks for is read first, and what comes of it is a
report that says everything the outside gets to see.
-/

namespace GroupedOptions

inductive Command where
  | parse (config : String) (varPrefix : Option String) (args : List String)
  | query (config : String) (token : String)
  | split (group : String)
  deriving DecidableEq, Repr

inductive Request where
  | version
  | run (command : Command)
  deriving DecidableEq, Repr

namespace CommandLine

/-- The arguments of a command, those after `--` apart. -/
structure Given where
  debug : Bool
  options : List (String × String)
  operands : List String
  trailing : List String
  deriving DecidableEq, Repr

namespace Given

def empty : Given := ⟨false, [], [], []⟩

def option? (g : Given) (name : String) : Option String := g.options.lookup name

def addOption? (g : Given) (name value : String) : Option Given :=
  if (g.option? name).isSome then none else some { g with options := g.options ++ [(name, value)] }

/-- The only operand, wherever it stands. -/
def single? (g : Given) : Option String :=
  match g.operands ++ g.trailing with
  | [arg] => some arg
  | _ => none

end Given

/-- Whether an argument reads as an option; a lone dash does not. -/
def isOption (arg : String) : Bool :=
  match arg.toList with
  | '-' :: _ :: _ => true
  | _ => false

def longOption? (arg : String) : Option (String × Option String) :=
  match arg.toList with
  | '-' :: '-' :: text =>
      match Template.cutAt '=' text with
      | some (name, value) => some (String.ofList name, some (String.ofList value))
      | none => some (String.ofList text, none)
  | _ => none

/-- Reads the arguments of a command that knows the options `names`. An option takes the
attached value or the next argument, which must not read as an option itself. -/
def readGiven (names : List String) : Given → List String → Option Given
  | g, [] => some g
  | g, arg :: rest =>
      if arg = "--" then some { g with trailing := rest }
      else if arg = "--debug" then
        if g.debug then none else readGiven names { g with debug := true } rest
      else if isOption arg then
        match longOption? arg with
        | none => none
        | some (name, attached) =>
            if name ∉ names then none
            else
              match attached, rest with
              | some value, rest => (g.addOption? name value).bind fun g => readGiven names g rest
              | none, value :: rest =>
                  if isOption value then none
                  else (g.addOption? name value).bind fun g => readGiven names g rest
              | none, [] => none
      else readGiven names { g with operands := g.operands ++ [arg] } rest

def command? (name : String) (args : List String) : Option Command :=
  if name = "parse" then
    (readGiven ["config", "prefix"] .empty args).bind fun g =>
      if !g.operands.isEmpty then none
      else (g.option? "config").map fun config => .parse config (g.option? "prefix") g.trailing
  else if name = "match" then
    (readGiven ["config"] .empty args).bind fun g =>
      (g.option? "config").bind fun config => g.single?.map fun token => .query config token
  else if name = "split" then
    (readGiven [] .empty args).bind fun g => g.single?.map fun group => .split group
  else none

def asksVersion (arg : String) : Bool :=
  arg == "--version" ||
    match arg.toList with
    | '-' :: 'V' :: _ => true
    | _ => false

/-- Reads a command line; the first argument that is not `--debug` settles it. -/
def read? : List String → Option Request
  | [] => none
  | "--debug" :: arg :: rest => readCommand? arg rest
  | arg :: rest => readCommand? arg rest
where
  readCommand? (arg : String) (rest : List String) : Option Request :=
    if asksVersion arg then some .version else (command? arg rest).map .run

end CommandLine

/-- What comes of a command line: a usage error, text to print, a script whose place is
printed, a failure after some text has been printed, or the end of the program in an overflow. -/
inductive Report where
  | usage
  | printed (text : String)
  | sourced (script : String)
  | failed (printed : String) (message : String) (cause : Option String)
  | overflow
  deriving DecidableEq, Repr

namespace Report

def exitCode : Report → Nat
  | usage => 2
  | printed _ => 0
  | sourced _ => 0
  | failed _ _ _ => 1
  | overflow => 101

/-- The lines that explain a failure by its cause. -/
def causeLines (cause : String) : String :=
  let indent (c : Char) : List Char := if c = '\n' then "\n    ".toList else [c]
  "\nCaused by:\n    " ++ String.ofList (cause.toList.flatMap indent) ++ "\n"

end Report

namespace Command

def load (json : String) : Except Report (Config × OptionSet) :=
  match Config.read? json with
  | none => .error (.failed "" "failed to parse config JSON" none)
  | some config =>
      match config.compile with
      | .error (.error e) => .error (.failed "" "invalid config" (some e.message))
      | .error .overflow => .error .overflow
      | .ok set => .ok (config, set)

/-- The script for a shell, also where the arguments do not parse. -/
def parseArguments (config : Config) (set : OptionSet) (varPrefix : Option String)
    (args : List String) : Report :=
  match set.parse (.ofList (config.programName :: args)) with
  | .ok (m, argv) => .sourced (Shell.script m argv (varPrefix.getD config.effectivePrefix))
  | .error (.callback .overflow) => .overflow
  | .error e => .sourced (Shell.errorScript e.message)

/-- Prints one field a line until one does not decode. -/
def printFields (done : String) : List (Except Group.DecodeError String) → Report
  | [] => .printed done
  | .ok field :: rest => printFields (done ++ field ++ "\n") rest
  | .error e :: _ => .failed done "failed to decode option group" (some e.message)

def run : Command → Report
  | .parse json varPrefix args =>
      match load json with
      | .error report => report
      | .ok (config, set) => parseArguments config set varPrefix args
  | .query json token =>
      match load json with
      | .error report => report
      | .ok (_, set) => .printed (toString (set.table.isMatch token) ++ "\n")
  | .split group => printFields "" (Group.fields group)

end Command

def CommandLine.run (args : List String) : Report :=
  match CommandLine.read? args with
  | none => .usage
  | some .version => .printed "gopt 0.1.0\n"
  | some (.run command) => command.run

end GroupedOptions
