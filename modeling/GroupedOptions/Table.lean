import GroupedOptions.FromValue
import GroupedOptions.Template

/-!
# Option tables

A table is an ordered list of rows. A row pairs a template with the key under
which matching tokens are handed to a callback, or with a field of the
caller's data. One token may match several rows, and a lookup lists them all
in table order.
-/

namespace GroupedOptions

/-- The key under which a token reaches the callback. Keys below zero are reserved. -/
structure Key where
  code : Int32
  deriving DecidableEq, Repr

namespace Key

/-- An option that no row matches. -/
def unmatched : Key := ⟨-1⟩

/-- A positional argument. -/
def positional : Key := ⟨-2⟩

/-- Passes by the callback and keeps the token. -/
def keep : Key := ⟨-3⟩

/-- Passes by the callback and drops the token. -/
def discard : Key := ⟨-4⟩

def isReserved (k : Key) : Bool := k.code < 0

end Key

/-- Write access to the caller's data. A store answers with the data after it and the
reason why it failed, if it did. -/
structure Field (D : Type) where
  store : D → Value → D × Option ConvError

/-- The field that `put` writes; a value that its type cannot hold changes nothing. -/
def Field.of {D α : Type} [FromValue α] (put : D → α → D) : Field D where
  store data v :=
    match (fromValue v : Except ConvError α) with
    | .ok x => (put data x, none)
    | .error e => (data, some e)

/-- Where the tokens of a row go; a field without a conversion stores the fixed value. -/
inductive Dest (D : Type) where
  | key (key : Key)
  | field (field : Field D) (value : Int64)

structure Row (D : Type) where
  templ : Template
  dest : Dest D

namespace Row

variable {D : Type}

def forKey (templ : String) (key : Key) : Row D := ⟨⟨templ⟩, .key key⟩

def forValue (templ : String) (field : Field D) (value : Int64) : Row D :=
  ⟨⟨templ⟩, .field field value⟩

def forField (templ : String) (field : Field D) : Row D := forValue templ field 0

end Row

/-- A row that matches a token, with the separator offset of the match. -/
structure Hit (D : Type) where
  row : Row D
  sep : Nat

def Row.hit? {D : Type} (row : Row D) (token : String) : Option (Hit D) :=
  (row.templ.match? token).map fun sep => ⟨row, sep⟩

/-- Rows in the order of matching, and the key that a new key row is given next. -/
structure Table (D : Type) where
  rows : List (Row D)
  nextKey : Int32

namespace Table

variable {D : Type}

def empty : Table D := ⟨[], 0⟩

def size (t : Table D) : Nat := t.rows.length

def isEmpty (t : Table D) : Bool := t.rows.isEmpty

/-- The next key once a row is in the table, after every unreserved key so far. There is none
after the greatest. -/
def keyAfter? (next : Int32) : Dest D → Option Int32
  | .key k =>
      if !k.isReserved && next ≤ k.code then
        if k.code = Int32.maxValue then none else some (k.code + 1)
      else some next
  | .field _ _ => some next

/-- Adds a row, unless the key counter would overflow. -/
def push (t : Table D) (row : Row D) : Option (Table D) :=
  (keyAfter? t.nextKey row.dest).map fun next => ⟨t.rows ++ [row], next⟩

def ofList (rows : List (Row D)) : Option (Table D) := rows.foldlM push empty

def addKey (t : Table D) (templ : String) : Option (Key × Table D) :=
  let key : Key := ⟨t.nextKey⟩
  (t.push (.forKey templ key)).map fun t => (key, t)

/-- Adds a row under a key of the caller's choice, such as a second spelling of an option. -/
def addKeyFor (t : Table D) (templ : String) (key : Key) : Option (Table D) :=
  t.push (.forKey templ key)

/-- Adds a row without an unreserved key, for which the counter stays where it is. -/
def append (t : Table D) (row : Row D) : Table D := { t with rows := t.rows ++ [row] }

def addKeep (t : Table D) (templ : String) : Table D := t.append (.forKey templ .keep)

def addDiscard (t : Table D) (templ : String) : Table D := t.append (.forKey templ .discard)

def addField (t : Table D) (templ : String) (field : Field D) : Table D :=
  t.append (.forField templ field)

def addValue (t : Table D) (templ : String) (field : Field D) (value : Int64) : Table D :=
  t.append (.forValue templ field value)

def afterNegation? (text : List Char) : Option (List Char) :=
  match text with
  | '[' :: 'n' :: 'o' :: ']' :: rest => some rest
  | _ => none

/-- The name that a toggle switches on; the mark `[no]` before it may be left out. -/
def toggleName (templ : String) : String :=
  String.ofList ((afterNegation? templ.toList).getD templ.toList)

/-- Adds a pair of rows, of which the name stores 1 and the name after `no` stores 0. -/
def addToggle (t : Table D) (templ : String) (field : Field D) : Table D :=
  let name := toggleName templ
  (t.addValue name field 1).addValue ("no" ++ name) field 0

def lookup (t : Table D) (token : String) : List (Hit D) :=
  t.rows.filterMap fun row => row.hit? token

def find? (t : Table D) (token : String) : Option (Hit D) := (t.lookup token).head?

def isMatch (t : Table D) (token : String) : Bool := (t.find? token).isSome

end Table

end GroupedOptions
