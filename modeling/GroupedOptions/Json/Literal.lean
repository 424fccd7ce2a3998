import GroupedOptions.Decimal

/-!
# Number literals of JSON

A literal is kept as it was spelled, so that an integer can be told from a
number that only happens to be whole. Whether a literal lies in the range of
double precision is decided by the steps of a single pass over its digits: the
digits that fit 64 bits form a significand, further ones count only by their
place, and the significand is then scaled by a rounded power of ten.
-/

namespace GroupedOptions.Json

structure Exponent where
  negative : Bool
  digits : List Char
  deriving DecidableEq, Repr

/-- A number as it was spelled, without its point and marks. -/
structure Literal where
  negative : Bool
  whole : List Char
  fraction : List Char
  exponent : Option Exponent
  deriving DecidableEq, Repr

namespace Literal

def isWhole (digits : List Char) : Bool :=
  match digits with
  | [] => false
  | '0' :: rest => rest.isEmpty
  | _ => true

def exponent? (text : List Char) : Option Exponent :=
  let (negative, digits) :=
    match text with
    | '-' :: rest => (true, rest)
    | '+' :: rest => (false, rest)
    | rest => (false, rest)
  if digits.isEmpty || !digits.all Char.isDigit then none else some ⟨negative, digits⟩

def fraction? (text : List Char) : Option (List Char × List Char) :=
  match text with
  | '.' :: rest =>
      let digits := rest.takeWhile Char.isDigit
      if digits.isEmpty then none else some (digits, rest.dropWhile Char.isDigit)
  | rest => some ([], rest)

def isExponentMark (c : Char) : Bool := c == 'e' || c == 'E'

def read? (text : List Char) : Option Literal :=
  let (negative, rest) :=
    match text with
    | '-' :: rest => (true, rest)
    | rest => (false, rest)
  let whole := rest.takeWhile Char.isDigit
  if !isWhole whole then none
  else
    (fraction? (rest.dropWhile Char.isDigit)).bind fun (fraction, rest) =>
      match rest with
      | [] => some ⟨negative, whole, fraction, none⟩
      | c :: rest =>
          if isExponentMark c then
            (exponent? rest).map fun e => ⟨negative, whole, fraction, some e⟩
          else none

/-- The integer of a literal that has neither fraction nor exponent. A negative zero is
no integer. -/
def int? (l : Literal) : Option Int :=
  let n := Decimal.ofDigits l.whole
  if !l.fraction.isEmpty || l.exponent.isSome then none
  else if l.negative then (if n = 0 then none else some (-n))
  else some n

/-- The number continued with digits as long as it fits 64 bits, and the digits left over. -/
def fill : Nat → List Char → Nat × List Char
  | n, [] => (n, [])
  | n, c :: cs =>
      let next := 10 * n + (c.toNat - '0'.toNat)
      if next < UInt64.size then fill next cs else (n, c :: cs)

/-- The leading digits as an integer, with the power of ten of its last place. -/
def significand (l : Literal) : Nat × Int :=
  let (n, beyond) := fill 0 l.whole
  let (m, unused) := fill n l.fraction
  (m, beyond.length - (l.fraction.length - unused.length))

/-- Whether the reader's own estimate of the number is finite. The estimate is rounded at each step,
so right below the greatest finite number it may fail where the nearest number is finite. -/
def inRange (l : Literal) : Bool :=
  let (n, place) := l.significand
  let power : Int :=
    match l.exponent with
    | none => 0
    | some e => if e.negative then -Decimal.ofDigits e.digits else Decimal.ofDigits e.digits
  let scale := place + power
  if n = 0 then true
  else if Int32.maxValue.toInt < power then false
  else if 308 < scale then false
  else if scale < 0 then true
  else
    match Binary.mul (Binary.ofNat .binary64 n)
        (Binary.ofNat .binary64 (Nat.pow 10 scale.toNat)) with
    | .finite _ _ _ => true
    | _ => false

end Literal

end GroupedOptions.Json
