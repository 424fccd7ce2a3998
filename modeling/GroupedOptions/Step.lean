import GroupedOptions.Conversion
import GroupedOptions.ParseError
import GroupedOptions.Table

/-!
# The steps of a parse

Reading the tokens against a table says what is to be done, in order, without
doing any of it: which token is offered under which key, which value goes into
which field, where the separator stands, and where the parse fails. The
caller's data and the output take no part in that, so a token always means the
same wherever the parse has got to. Steps after a failure are never taken.
-/

namespace GroupedOptions

inductive Shape where
  | positional
  | group (attached : String)
  | separator
  | flag
  deriving DecidableEq, Repr

/-- A token that does not begin with a dash is positional, and one that begins with `-o`
is a group whatever else it may spell. -/
def Shape.of (token : String) : Shape :=
  match token.toList with
  | '-' :: 'o' :: attached => .group (String.ofList attached)
  | ['-', '-'] => .separator
  | '-' :: _ => .flag
  | _ => .positional

/-- Where a kept token goes: into the output, or among the fields of the output's group. -/
inductive Place where
  | output
  | group
  deriving DecidableEq, Repr

inductive Step (D : Type) where
  | offer (key : Key) (place : Place) (token : String)
  | store (field : Field D) (token : String) (value : Value)
  | separator
  | fail (error : ParseError)

namespace Hit

variable {D : Type}

/-- Whether the token is the bare name of a spaced template, whose value is the next token. -/
def awaitsValue (h : Hit D) (token : String) : Bool :=
  h.row.templ.isSpaced h.sep && token.utf8ByteSize == h.sep

/-- The value that a field row stores: its conversion of the token's value part, or the
fixed value where the template has no conversion. -/
def stored (h : Hit D) (token : String) (fixed : Int64) : Except ParseError Value :=
  match h.row.templ.conversion? h.sep with
  | none => .ok (.int fixed)
  | some directive =>
      match Conversion.parse? directive with
      | none => .error (.badTemplate h.row.templ)
      | some c =>
          match c.convert (h.row.templ.valuePart h.sep token) with
          | .ok v => .ok v
          | .error e => .error (.invalidConversion token e)

def step (h : Hit D) (place : Place) (token : String) : Step D :=
  match h.row.dest with
  | .key key => .offer key place token
  | .field field fixed =>
      match h.stored token fixed with
      | .ok v => .store field token v
      | .error e => .fail e

/-- What a matching row does once the value after the token is known; a row that takes
its value from the token itself is given the token unchanged. -/
def stepWith (h : Hit D) (place : Place) (token value : String) : Step D :=
  h.step place (if h.awaitsValue token then token ++ value else token)

end Hit

/-- Where reading stands between two tokens. -/
inductive Cursor (D : Type) where
  /-- Before the separator. -/
  | options
  /-- After the separator. -/
  | operands
  /-- After a bare `-o`. -/
  | awaitingGroup
  /-- After the name of a spaced template: the hits that have not had their turn, and the
  fields that follow in the same group. -/
  | awaitingValue (token : String) (place : Place) (hits : List (Hit D))
      (fields : List (Except Group.DecodeError String))

namespace Table

variable {D : Type} (t : Table D)

/-- The steps of an option token up to the first row that awaits a value, and the rows
from there on. -/
def optionSteps (place : Place) (token : String) : List (Step D) × List (Hit D) :=
  match t.lookup token with
  | [] => ([.offer .unmatched place token], [])
  | hits =>
      let (now, later) := hits.span fun h => !h.awaitsValue token
      (now.map fun h => h.step place token, later)

def groupSteps : List (Except Group.DecodeError String) → List (Step D) × Cursor D
  | [] => ([], .options)
  | .error e :: fields =>
      let (steps, cursor) := groupSteps fields
      (.fail (.invalidGroup e) :: steps, cursor)
  | .ok field :: fields =>
      match t.optionSteps .group field with
      | (now, []) =>
          let (steps, cursor) := groupSteps fields
          (now ++ steps, cursor)
      | (now, hits) => (now, .awaitingValue field .group hits fields)

def feed : Cursor D → String → List (Step D) × Cursor D
  | .operands, token => ([.offer .positional .output token], .operands)
  | .awaitingGroup, token => t.groupSteps (Group.fields token)
  | .awaitingValue name place hits fields, token =>
      let (steps, cursor) := t.groupSteps fields
      (hits.map (fun h => h.stepWith place name token) ++ steps, cursor)
  | .options, token =>
      match Shape.of token with
      | .positional => ([.offer .positional .output token], .options)
      | .group attached =>
          if attached = "" then ([], .awaitingGroup) else t.groupSteps (Group.fields attached)
      | .separator => ([.separator], .operands)
      | .flag =>
          match t.optionSteps .output token with
          | (now, []) => (now, .options)
          | (now, hits) => (now, .awaitingValue token .output hits [])

/-- The failure of a token whose group or value never came. -/
def close : Cursor D → List (Step D)
  | .awaitingGroup => [.fail (.missingArgument "-o")]
  | .awaitingValue token _ _ _ => [.fail (.missingArgument token)]
  | _ => []

def feedAll : Cursor D → List String → List (Step D) × Cursor D
  | cursor, [] => ([], cursor)
  | cursor, token :: tokens =>
      let (now, next) := t.feed cursor token
      let (later, last) := feedAll next tokens
      (now ++ later, last)

def steps (cursor : Cursor D) (tokens : List String) : List (Step D) :=
  (t.feedAll cursor tokens).1 ++ close (t.feedAll cursor tokens).2

@[simp] theorem feedAll_nil (cursor : Cursor D) : t.feedAll cursor [] = ([], cursor) := rfl

theorem feedAll_append (cursor : Cursor D) (xs ys : List String) :
    t.feedAll cursor (xs ++ ys) =
      ((t.feedAll cursor xs).1 ++ (t.feedAll (t.feedAll cursor xs).2 ys).1,
        (t.feedAll (t.feedAll cursor xs).2 ys).2) := by
  induction xs generalizing cursor with
  | nil => rfl
  | cons x xs ih => simp [feedAll, ih]

theorem steps_append (cursor : Cursor D) (xs ys : List String) :
    t.steps cursor (xs ++ ys) =
      (t.feedAll cursor xs).1 ++ t.steps (t.feedAll cursor xs).2 ys := by
  simp [steps, feedAll_append]

end Table

end GroupedOptions
