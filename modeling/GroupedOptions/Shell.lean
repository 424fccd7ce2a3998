import GroupedOptions.ArgVec
import GroupedOptions.Matches

/-!
# Shell scripts

A parse hands its result to a shell as a script to be sourced. Values are
exported in double quotes, positional arguments as one variable of quoted
words, and the rebuilt arguments become the shell's own. A parse that failed
is handed over as a script that reports the error and exits.
-/

namespace GroupedOptions.Shell

/-- A character within double quotes. Line ends and tabs become visible escapes. -/
def escapeChar (c : Char) : List Char :=
  match c with
  | '$' => ['\\', '$']
  | '\x60' => ['\\', '\x60']
  | '\\' => ['\\', '\\']
  | '"' => ['\\', '"']
  | '!' => ['\\', '!']
  | '\n' => ['\\', 'n']
  | '\r' => ['\\', 'r']
  | '\t' => ['\\', 't']
  | c => [c]

def escape (text : String) : String := String.ofList (text.toList.flatMap escapeChar)

/-- A character within single quotes, which a single quote has to leave for a moment. -/
def quoteChar (c : Char) : List Char := if c = '\'' then ['\'', '\\', '\'', '\''] else [c]

def quote (word : String) : String :=
  String.ofList ('\'' :: (word.toList.flatMap quoteChar ++ ['\'']))

def quoteAll (words : List String) : String := " ".intercalate (words.map quote)

/-- A character of a variable name: letters and digits of the first 128 characters in
upper case, and an underscore for any other. -/
def variableChar (c : Char) : Char := if c.isAlphanum then c.toUpper else '_'

def variableName (name : String) : String := String.ofList (name.toList.map variableChar)

def exportLine (name text : String) : String :=
  "export " ++ name ++ "=\"" ++ escape text ++ "\"\n"

def setLine (words : List String) : String :=
  if words.isEmpty then "set --\n" else "set -- " ++ quoteAll words ++ "\n"

/-- The script of a parse that succeeded; the first argument, the program name, is left out. -/
def script (m : Matches) (argv : ArgVec) (varPrefix : String) : String :=
  let exports := m.values.entries.map fun (name, v) =>
    exportLine (varPrefix ++ variableName name) v.display
  String.join exports ++ exportLine (varPrefix ++ "POSITIONALS") (quoteAll m.positionals) ++
    setLine (argv.toList.drop 1)

def errorScript (message : String) : String :=
  "echo \"gopt: " ++ escape message ++ "\" >&2\nexit 1\n"

end GroupedOptions.Shell
