import GroupedOptions.Config
import GroupedOptions.Json

/-!
# Configurations in JSON

A configuration, and each declaration in it, is an object with named fields or
an array of the same fields in order. A field that is read must not occur
twice in an object; fields of other names are passed over. A declaration is
held in full before it is read, so each number and text anywhere in it must be
readable and its nesting is limited, while what a configuration passes over
need only be grammatical.
-/

namespace GroupedOptions

namespace Json

def members? : Json → Option (List (String × Json))
  | .object members => members.mapM fun (key, v) => key.map fun key => (key, v)
  | _ => none

/-- The member of a name, if there is one; two of them are refused. -/
def member? (name : String) (members : List (String × Json)) : Option (Option Json) :=
  match members.filter fun m => m.1 == name with
  | [] => some none
  | [m] => some (some m.2)
  | _ => none

def text? : Json → Option String
  | .string text => text
  | _ => none

/-- A text that may be absent or null. -/
def optionalText? : Option Json → Option (Option String)
  | none => some none
  | some .null => some none
  | some v => v.text?.map some

end Json

namespace Policy

def ofName? (name : String) : Option Policy :=
  if name = "keep" then some keep
  else if name = "discard" then some discard
  else if name = "error" then some error
  else none

/-- A policy's name, or an object that has it as its only key, with null. -/
def ofJson? : Json → Option Policy
  | .string name => name.bind ofName?
  | .object [(name, .null)] => name.bind ofName?
  | _ => none

/-- A policy within a declaration, where an empty object stands for null too. -/
def ofInnerJson? : Json → Option Policy
  | .object [(name, .object [])] => name.bind ofName?
  | v => ofJson? v

end Policy

namespace OptionDecl

def fieldNames? (kind : String) : Option (List String) :=
  if kind = "flag" then some ["template", "name", "policy"]
  else if kind = "value" then some ["template", "name"]
  else if kind = "set" then some ["template", "name", "value"]
  else if kind = "toggle" then some ["template", "name"]
  else if kind = "keep" then some ["template"]
  else if kind = "discard" then some ["template"]
  else none

def fixed? : Json → Option Int64
  | .number l =>
      l.int?.bind fun n =>
        if Int64.minValue.toInt ≤ n ∧ n ≤ Int64.maxValue.toInt then some (Int64.ofInt n) else none
  | _ => none

/-- Reads the fields of the given kind; others are passed over. -/
def ofFields? (kind : String) (fields : List (String × Json)) : Option OptionDecl := do
  let templ : Template := ⟨← (← Json.member? "template" fields).bind Json.text?⟩
  if kind = "flag" then
    let name ← Json.optionalText? (← Json.member? "name" fields)
    let policy ← match ← Json.member? "policy" fields with
      | none => some .keep
      | some v => Policy.ofInnerJson? v
    return flag templ name policy
  else if kind = "value" then
    return value templ (← Json.optionalText? (← Json.member? "name" fields))
  else if kind = "set" then
    let name ← Json.optionalText? (← Json.member? "name" fields)
    return set templ name (← (← Json.member? "value" fields).bind fixed?)
  else if kind = "toggle" then
    return toggle templ (← Json.optionalText? (← Json.member? "name" fields))
  else if kind = "keep" then return keep templ
  else if kind = "discard" then return discard templ
  else none

/-- Names the fields of an array after its kind. Only the policy of a flag may be missing. -/
def ofItems? (kind : String) (items : List Json) : Option OptionDecl := do
  let names ← fieldNames? kind
  if items.length = names.length ∨ kind = "flag" ∧ items.length + 1 = names.length then
    ofFields? kind (names.zip items)
  else none

/-- The greatest depth of a declaration. -/
def maxDepth : Nat := 125

def ofJson? (json : Json) : Option OptionDecl :=
  if !json.isPlain || maxDepth < json.depth then none
  else
    match json with
    | .array (kind :: items) => kind.text?.bind fun kind => ofItems? kind items
    | json => do
        let fields ← json.members?
        let kind ← (← Json.member? "kind" fields).bind Json.text?
        ofFields? kind fields

end OptionDecl

namespace Config

def fieldNames : List String := ["name", "prefix", "options", "positional", "unmatched"]

def options? : Option Json → Option (List OptionDecl)
  | none => some []
  | some (.array items) => items.mapM OptionDecl.ofJson?
  | some _ => none

def policy? : Option Json → Option Policy
  | none => some .keep
  | some v => Policy.ofJson? v

def ofFields? (fields : List (String × Json)) : Option Config := do
  let name ← Json.optionalText? (← Json.member? "name" fields)
  let varPrefix ← Json.optionalText? (← Json.member? "prefix" fields)
  let options ← options? (← Json.member? "options" fields)
  let positional ← policy? (← Json.member? "positional" fields)
  let unmatched ← policy? (← Json.member? "unmatched" fields)
  return ⟨name, varPrefix, options, positional, unmatched⟩

/-- In an array the name and the prefix must be there, and fields may be missing after them. -/
def ofJson? (json : Json) : Option Config :=
  match json with
  | .array items =>
      if 2 ≤ items.length ∧ items.length ≤ fieldNames.length then ofFields? (fieldNames.zip items)
      else none
  | json => json.members?.bind ofFields?

def read? (text : String) : Option Config := (Json.read? text).bind ofJson?

end Config

end GroupedOptions
