import GroupedOptions.Text.Octets

/-!
# Option groups

A group such as `ro,uid=1000,fsname=a\,b` holds fields between unescaped
commas. A backslash before three octal digits stands for that octet, before
any other octet for that octet, and at the very end for itself. Fields are
decoded octet by octet, so that a run of octal escapes may spell one
character, and a field whose octets are no UTF-8 text fails on its own. A
group is put together with backslashes before commas and backslashes alone,
never with octal escapes.
-/

namespace GroupedOptions.Group

open Text

/-- What a group spells: an octet of the current field, or the end of that field. -/
inductive Symbol where
  | octet (value : UInt8)
  | comma
  deriving DecidableEq, Repr

def octal? (a b c : UInt8) : Option UInt8 :=
  if 48 ≤ a ∧ a ≤ 51 ∧ 48 ≤ b ∧ b ≤ 55 ∧ 48 ≤ c ∧ c ≤ 55 then
    some ((a - 48) * 64 + (b - 48) * 8 + (c - 48))
  else none

/-- The octets of a comma and of a backslash. -/
def commaOctet : UInt8 := 44

def backslashOctet : UInt8 := 92

/-- Reads the escapes of a group from left to right. -/
def symbols : List UInt8 → List Symbol
  | [] => []
  | x :: rest =>
      if x = commaOctet then .comma :: symbols rest
      else if x = backslashOctet then
        match rest with
        | a :: b :: c :: tail =>
            match octal? a b c with
            | some value => .octet value :: symbols tail
            | none => .octet a :: symbols (b :: c :: tail)
        | a :: tail => .octet a :: symbols tail
        | [] => [.octet x]
      else .octet x :: symbols rest

@[simp] theorem symbols_nil : symbols [] = [] := by rw [symbols.eq_def]

@[simp] theorem symbols_comma (rest : List UInt8) :
    symbols (commaOctet :: rest) = .comma :: symbols rest := by
  rw [symbols.eq_def]; simp

theorem symbols_plain {x : UInt8} (hc : x ≠ commaOctet) (hb : x ≠ backslashOctet)
    (rest : List UInt8) : symbols (x :: rest) = .octet x :: symbols rest := by
  rw [symbols.eq_def]; simp [hc, hb]

@[simp] theorem symbols_backslash : symbols [backslashOctet] = [.octet backslashOctet] := by
  rw [symbols.eq_def]; simp [backslashOctet, commaOctet]

theorem symbols_octal {a b c value : UInt8} (h : octal? a b c = some value) (tail : List UInt8) :
    symbols (backslashOctet :: a :: b :: c :: tail) = .octet value :: symbols tail := by
  rw [symbols.eq_def]; simp [backslashOctet, commaOctet, h]

theorem symbols_escaped {a : UInt8} {rest : List UInt8}
    (h : ∀ b c tail, rest = b :: c :: tail → octal? a b c = none) :
    symbols (backslashOctet :: a :: rest) = .octet a :: symbols rest := by
  rw [symbols.eq_def]
  match rest, h with
  | [], _ => simp [backslashOctet, commaOctet]
  | [b], _ => simp [backslashOctet, commaOctet]
  | b :: c :: tail, h => simp [backslashOctet, commaOctet, h b c tail rfl]

/-- Cuts at each comma, so that there is one field more than there are commas. -/
def cutFields : List Symbol → List (List UInt8)
  | [] => [[]]
  | .comma :: rest => [] :: cutFields rest
  | .octet value :: rest => (cutFields rest).modifyHead (value :: ·)

theorem cutFields_ne_nil (xs : List Symbol) : cutFields xs ≠ [] := by
  induction xs with
  | nil => simp [cutFields]
  | cons x xs ih => cases x <;> simp [cutFields, ih]

theorem cutFields_append_comma (xs ys : List Symbol) :
    cutFields (xs ++ .comma :: ys) = cutFields xs ++ cutFields ys := by
  induction xs with
  | nil => rfl
  | cons x xs ih =>
    cases x with
    | comma => simp [cutFields, ih]
    | octet v =>
      simp only [List.cons_append, cutFields, ih]
      cases h : cutFields xs with
      | nil => exact absurd h (cutFields_ne_nil xs)
      | cons f fs => rfl

def rawFields (group : String) : List (List UInt8) :=
  cutFields (symbols (toOctets group.toList))

/-- A field of `group` decodes to octets that are no UTF-8 text. -/
structure DecodeError where
  group : String
  deriving DecidableEq, Repr

def DecodeError.message (e : DecodeError) : String :=
  "option group `" ++ e.group ++ "' does not decode to valid UTF-8"

/-- The decoded fields; one that fails leaves the others as they are. -/
def fields (group : String) : List (Except DecodeError String) :=
  (rawFields group).map fun octets => (ofOctets? octets).elim (.error ⟨group⟩) .ok

/-- Puts a backslash before each comma and backslash. -/
def escapeChars : List Char → List Char
  | [] => []
  | c :: cs => if c = ',' ∨ c = '\\' then '\\' :: c :: escapeChars cs else c :: escapeChars cs

/-- The spelling of a field that keeps its commas and backslashes through decoding. -/
def escape (field : String) : String :=
  String.ofList (escapeChars field.toList)

/-- Appends `text` as it stands after a comma, or starts a group with it. -/
def add (group : Option String) (text : String) : String :=
  match group with
  | some group => group ++ "," ++ text
  | none => text

def addEscaped (group : Option String) (field : String) : String :=
  add group (escape field)

/-- The group of the given fields, which is none where there is no field. -/
def join (fields : List String) : Option String :=
  fields.foldl (fun group field => some (addEscaped group field)) none

end GroupedOptions.Group
