import GroupedOptions.Json.Literal

/-!
# The tokens of a JSON text

The text is read one character at a time. Numbers and words run on as long as
their characters do and are held against their grammar when they end, strings
run to the closing quote. A string may spell half of a surrogate pair, which
belongs to the grammar but is no text, so such a string is a token without a
text.
-/

namespace GroupedOptions.Json

inductive Token where
  | openArray
  | closeArray
  | openObject
  | closeObject
  | colon
  | comma
  | null
  | bool (b : Bool)
  | number (l : Literal)
  | string (text : Option String)
  deriving DecidableEq, Repr

/-- What a string spells: a character, or a 16-bit unit in hexadecimal. -/
inductive Piece where
  | char (c : Char)
  | unit (code : Nat)
  deriving DecidableEq, Repr

def isHighSurrogate (code : Nat) : Bool := 0xD800 ≤ code && code < 0xDC00

def isLowSurrogate (code : Nat) : Bool := 0xDC00 ≤ code && code < 0xE000

/-- The character of a surrogate pair. -/
def ofSurrogates (high low : Nat) : Char :=
  Char.ofNat (0x10000 + (high - 0xD800) * 0x400 + (low - 0xDC00))

/-- The characters that a string spells, if every surrogate has its other half after it. -/
def resolve : List Piece → Option (List Char)
  | [] => some []
  | .char c :: rest => (resolve rest).map (c :: ·)
  | .unit high :: .unit low :: rest =>
      if isHighSurrogate high then
        if isLowSurrogate low then (resolve rest).map (ofSurrogates high low :: ·) else none
      else if isLowSurrogate high then none
      else (resolve (.unit low :: rest)).map (Char.ofNat high :: ·)
  | .unit code :: rest =>
      if isHighSurrogate code || isLowSurrogate code then none
      else (resolve rest).map (Char.ofNat code :: ·)

/-- Where reading stands between two characters. -/
inductive Mode where
  | between
  | word (letters : List Char)
  | number (text : List Char)
  | string (pieces : List Piece)
  | escape (pieces : List Piece)
  | unit (pieces : List Piece) (digits : List Char)
  deriving DecidableEq, Repr

def isBlank (c : Char) : Bool := c == ' ' || c == '\n' || c == '\t' || c == '\r'

def isNumeric (c : Char) : Bool :=
  c.isDigit || c == '+' || c == '-' || c == '.' || c == 'e' || c == 'E'

def start (c : Char) : Option (List Token × Mode) :=
  if isBlank c then some ([], .between)
  else if c.isLower then some ([], .word [c])
  else if c.isDigit || c == '-' then some ([], .number [c])
  else
    match c with
    | '"' => some ([], .string [])
    | '[' => some ([.openArray], .between)
    | ']' => some ([.closeArray], .between)
    | '\x7b' => some ([.openObject], .between)
    | '\x7d' => some ([.closeObject], .between)
    | ':' => some ([.colon], .between)
    | ',' => some ([.comma], .between)
    | _ => none

def word? (letters : List Char) : Option Token :=
  if letters = ['n', 'u', 'l', 'l'] then some .null
  else if letters = ['t', 'r', 'u', 'e'] then some (.bool true)
  else if letters = ['f', 'a', 'l', 's', 'e'] then some (.bool false)
  else none

/-- The character that a single letter names after a backslash. -/
def escaped? (c : Char) : Option Char :=
  match c with
  | '"' => some '"'
  | '\\' => some '\\'
  | '/' => some '/'
  | 'b' => some '\x08'
  | 'f' => some '\x0c'
  | 'n' => some '\n'
  | 'r' => some '\r'
  | 't' => some '\t'
  | _ => none

def hexDigit? (c : Char) : Option Nat :=
  if '0' ≤ c ∧ c ≤ '9' then some (c.toNat - '0'.toNat)
  else if 'a' ≤ c ∧ c ≤ 'f' then some (c.toNat - 'a'.toNat + 10)
  else if 'A' ≤ c ∧ c ≤ 'F' then some (c.toNat - 'A'.toNat + 10)
  else none

def hexValue? (digits : List Char) : Option Nat :=
  digits.foldlM (fun n c => (hexDigit? c).map fun d => 16 * n + d) 0

/-- The token that a run of word or number characters makes at its end. -/
def Mode.token? : Mode → Option Token
  | .word letters => word? letters
  | .number text => (Literal.read? text).map .number
  | _ => none

def Mode.feed (mode : Mode) (c : Char) : Option (List Token × Mode) :=
  match mode with
  | .between => start c
  | .word letters =>
      if c.isLower then some ([], .word (letters ++ [c])) else restart
  | .number text =>
      if isNumeric c then some ([], .number (text ++ [c])) else restart
  | .string pieces =>
      if c = '"' then some ([.string ((resolve pieces).map String.ofList)], .between)
      else if c = '\\' then some ([], .escape pieces)
      else if c < ' ' then none
      else some ([], .string (pieces ++ [.char c]))
  | .escape pieces =>
      if c = 'u' then some ([], .unit pieces [])
      else (escaped? c).map fun d => ([], .string (pieces ++ [.char d]))
  | .unit pieces digits =>
      let digits := digits ++ [c]
      (hexValue? digits).map fun code =>
        if digits.length = 4 then ([], .string (pieces ++ [.unit code]))
        else ([], .unit pieces digits)
where
  restart : Option (List Token × Mode) :=
    mode.token?.bind fun token => (start c).map fun (tokens, next) => (token :: tokens, next)

/-- The tokens that the end of the text completes. -/
def Mode.finish : Mode → Option (List Token)
  | .between => some []
  | mode => mode.token?.map ([·])

def tokensFrom : Mode → List Char → Option (List Token)
  | mode, [] => mode.finish
  | mode, c :: cs =>
      (mode.feed c).bind fun (tokens, next) => (tokensFrom next cs).map (tokens ++ ·)

def tokens? (text : List Char) : Option (List Token) := tokensFrom .between text

end GroupedOptions.Json
