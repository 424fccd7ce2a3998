import GroupedOptions.Json.Token

/-!
# JSON values

The tokens of a text are put together into one value by a machine that holds
the containers still open. Members of an object keep their order, and a key
may occur more than once; what that means is for the reader of the object to
say.
-/

namespace GroupedOptions

/-- A value; a string or a key without a text spells half of a surrogate pair. -/
inductive Json where
  | null
  | bool (b : Bool)
  | number (l : Json.Literal)
  | string (text : Option String)
  | array (items : List Json)
  | object (members : List (Option String × Json))

namespace Json

/-- A container that is still open, around the value that is being read. -/
inductive Frame where
  | array (items : List Json)
  | object (members : List (Option String × Json)) (key : Option String)

/-- What may come next, inside the containers still open. -/
inductive Expected where
  | value (frames : List Frame)
  | item (frames : List Frame)
  | member (frames : List Frame)
  | key (members : List (Option String × Json)) (frames : List Frame)
  | colon (members : List (Option String × Json)) (key : Option String) (frames : List Frame)
  | after (value : Json) (frames : List Frame)

def valueToken? (frames : List Frame) : Token → Option Expected
  | .null => some (.after .null frames)
  | .bool b => some (.after (.bool b) frames)
  | .number l => some (.after (.number l) frames)
  | .string text => some (.after (.string text) frames)
  | .openArray => some (.item frames)
  | .openObject => some (.member frames)
  | _ => none

/-- A token after a complete value, which closes the innermost container or goes on in it. -/
def afterToken? (v : Json) : List Frame → Token → Option Expected
  | .array items :: frames, .comma => some (.value (.array (items ++ [v]) :: frames))
  | .array items :: frames, .closeArray => some (.after (.array (items ++ [v])) frames)
  | .object members key :: frames, .comma => some (.key (members ++ [(key, v)]) frames)
  | .object members key :: frames, .closeObject =>
      some (.after (.object (members ++ [(key, v)])) frames)
  | _, _ => none

def Expected.feed : Expected → Token → Option Expected
  | .value frames, token => valueToken? frames token
  | .item frames, .closeArray => some (.after (.array []) frames)
  | .item frames, token => valueToken? (.array [] :: frames) token
  | .member frames, .closeObject => some (.after (.object []) frames)
  | .member frames, .string name => some (.colon [] name frames)
  | .member _, _ => none
  | .key members frames, .string name => some (.colon members name frames)
  | .key _ _, _ => none
  | .colon members name frames, .colon => some (.value (.object members name :: frames))
  | .colon _ _ _, _ => none
  | .after v frames, token => afterToken? v frames token

/-- The value that the remaining tokens complete. -/
def build : Expected → List Token → Option Json
  | .after v [], [] => some v
  | _, [] => none
  | expected, token :: tokens => (expected.feed token).bind fun next => build next tokens

def read? (text : String) : Option Json :=
  (tokens? text.toList).bind (build (.value []))

mutual

def depth : Json → Nat
  | .array items => depthOfItems items + 1
  | .object members => depthOfMembers members + 1
  | _ => 0

def depthOfItems : List Json → Nat
  | [] => 0
  | v :: vs => max v.depth (depthOfItems vs)

def depthOfMembers : List (Option String × Json) → Nat
  | [] => 0
  | (_, v) :: rest => max v.depth (depthOfMembers rest)

end

mutual

/-- Whether every string and key has a text and every number is in range. -/
def isPlain : Json → Bool
  | .number l => l.inRange
  | .string text => text.isSome
  | .array items => areItemsPlain items
  | .object members => areMembersPlain members
  | _ => true

def areItemsPlain : List Json → Bool
  | [] => true
  | v :: vs => v.isPlain && areItemsPlain vs

def areMembersPlain : List (Option String × Json) → Bool
  | [] => true
  | (key, v) :: rest => key.isSome && v.isPlain && areMembersPlain rest

end

end Json

end GroupedOptions
