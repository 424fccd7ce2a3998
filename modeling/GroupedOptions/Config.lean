import GroupedOptions.Conversion
import GroupedOptions.Table

/-!
# Option set configurations

A configuration declares the options of a program. A declaration says how its
template is treated and under which name its results are recorded. It is
checked on its own, and a configuration is valid when each of its
declarations is.
-/

namespace GroupedOptions

/-- What happens to a token after it has been recorded. -/
inductive Policy where
  | keep
  | discard
  | error
  deriving DecidableEq, Repr

/-- A declared option. Flags are counted, values converted, and sets and toggles store
fixed numbers; what is kept or discarded is not recorded. -/
inductive OptionDecl where
  | flag (templ : Template) (name : Option String) (policy : Policy)
  | value (templ : Template) (name : Option String)
  | set (templ : Template) (name : Option String) (value : Int64)
  | toggle (templ : Template) (name : Option String)
  | keep (templ : Template)
  | discard (templ : Template)
  deriving DecidableEq, Repr

inductive ConfigError where
  | emptyTemplate (index : Nat)
  | emptyName (templ : Template)
  | missingConversion (templ : Template)
  | unsupportedConversion (templ : Template)
  | conversionOnSet (templ : Template)
  | invalidToggle (templ : Template)
  | errorPolicyOnFlag (templ : Template)
  | unreachableTemplate (templ : Template)
  deriving DecidableEq, Repr

def ConfigError.message : ConfigError → String
  | .emptyTemplate index => "option #" ++ toString index ++ " has an empty template"
  | .emptyName t => "template '" ++ t.text ++ "' has no name to store its value under"
  | .missingConversion t => "template '" ++ t.text ++ "' needs a conversion such as %s or %u"
  | .unsupportedConversion t => "template '" ++ t.text ++ "' has an unsupported conversion"
  | .conversionOnSet t =>
      "set template '" ++ t.text ++ "' stores a fixed value and cannot have a conversion"
  | .invalidToggle t => "toggle template '" ++ t.text ++ "' must look like [no]name"
  | .errorPolicyOnFlag t => "'error' policy cannot be used on flag '" ++ t.text ++ "'"
  | .unreachableTemplate t =>
      "template '" ++ t.text ++
        "' can never match: such tokens are always parsed as '--' or an -o group"

namespace OptionDecl

def templ : OptionDecl → Template
  | flag t _ _ => t
  | value t _ => t
  | set t _ _ => t
  | toggle t _ => t
  | keep t => t
  | discard t => t

def explicitName? : OptionDecl → Option String
  | flag _ name _ => name
  | value _ name => name
  | set _ name _ => name
  | toggle _ name => name
  | keep _ => none
  | discard _ => none

/-- The name that a template gives: what stands before its separator, without one mark
`[no]` and then without leading dashes. -/
def derivedName (t : Template) : String :=
  let stem := (t.parts?.map (·.name)).getD t.text.toList
  String.ofList (((Table.afterNegation? stem).getD stem).dropWhile (· == '-'))

def name? (d : OptionDecl) : Option String :=
  match d with
  | keep _ => none
  | discard _ => none
  | d => some (d.explicitName?.getD (derivedName d.templ))

def directive? (t : Template) : Option String := t.separator?.bind t.conversion?

/-- Whether every token that the template could match is read as something other than an
option: the separator or a group. -/
def isUnreachable (t : Template) : Bool :=
  match t.text.toList with
  | ['-', '-'] => true
  | '-' :: 'o' :: _ => true
  | _ => false

def isToggle (t : Template) : Bool :=
  match Table.afterNegation? t.text.toList with
  | none => false
  | some name => !name.isEmpty && (Template.separator? ⟨String.ofList name⟩).isNone

/-- The first fault of a declaration, whose place in the configuration is `index`. -/
def fault? (index : Nat) (d : OptionDecl) : Option ConfigError :=
  if d.templ.text = "" then some (.emptyTemplate index)
  else if isUnreachable d.templ then some (.unreachableTemplate d.templ)
  else if d.name? = some "" then some (.emptyName d.templ)
  else
    match d with
    | value t _ =>
        match directive? t with
        | none => some (.missingConversion t)
        | some directive =>
            if (Conversion.parse? directive).isNone then some (.unsupportedConversion t) else none
    | set t _ _ => if (directive? t).isSome then some (.conversionOnSet t) else none
    | toggle t _ => if isToggle t then none else some (.invalidToggle t)
    | flag t _ policy => if policy = .error then some (.errorPolicyOnFlag t) else none
    | keep _ => none
    | discard _ => none

end OptionDecl

/-- The options of a program, its name, and what to do with other tokens. -/
structure Config where
  name : Option String
  varPrefix : Option String
  options : List OptionDecl
  positional : Policy
  unmatched : Policy
  deriving DecidableEq, Repr

namespace Config

def programName (c : Config) : String := c.name.getD "gopt"

def effectivePrefix (c : Config) : String := c.varPrefix.getD "GOPT_"

def validate (c : Config) : Except ConfigError Unit :=
  match c.options.zipIdx.findSome? fun (d, index) => d.fault? index with
  | some e => .error e
  | none => .ok ()

end Config

end GroupedOptions
