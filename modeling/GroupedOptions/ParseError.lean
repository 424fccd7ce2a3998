import GroupedOptions.ArgVec
import GroupedOptions.ConvError
import GroupedOptions.Group
import GroupedOptions.Template

/-!
# Parse errors

Every way in which a parse fails, with what the message names. A counter that would pass its
greatest number is not reported as an error: it ends the program.
-/

namespace GroupedOptions

/-- Why there is no result: an error to report, or a counter at its greatest number, which
ends the program. -/
inductive Halt (ε : Type) where
  | error (e : ε)
  | overflow
  deriving DecidableEq, Repr

/-- What is written about it. -/
def Halt.message : Halt String → String
  | .error message => message
  | .overflow => "attempt to add with overflow"

inductive ParseError where
  | missingArgument (token : String)
  | invalidConversion (token : String) (cause : ConvError)
  | badTemplate (templ : Template)
  | invalidGroup (cause : Group.DecodeError)
  | invalidPosition (cause : PositionError)
  | callback (cause : Halt String)
  deriving DecidableEq, Repr

def ParseError.message : ParseError → String
  | .missingArgument token => "missing argument after `" ++ token ++ "'"
  | .invalidConversion token _ => "invalid parameter in option `" ++ token ++ "'"
  | .badTemplate templ => "unsupported conversion in template `" ++ templ.text ++ "'"
  | .invalidGroup cause => cause.message
  | .invalidPosition cause => cause.message
  | .callback cause => cause.message

end GroupedOptions
