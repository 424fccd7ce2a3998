import GroupedOptions.ConvError

/-!
# Integer numerals

Digits are read from left to right against a bound. Whichever comes first
decides the error: a character that is no digit of the radix makes the text
malformed, and a number beyond the bound is out of range however the text
goes on.
-/

namespace GroupedOptions.Numeral

/-- The value of `c` as a digit below `radix`, letters of either case following the nine. -/
def digit? (radix : Nat) (c : Char) : Option Nat :=
  let value :=
    if '0' ≤ c ∧ c ≤ '9' then some (c.toNat - '0'.toNat)
    else if 'a' ≤ c ∧ c ≤ 'z' then some (c.toNat - 'a'.toNat + 10)
    else if 'A' ≤ c ∧ c ≤ 'Z' then some (c.toNat - 'A'.toNat + 10)
    else none
  value.filter (· < radix)

def accumulate (radix bound : Nat) : Nat → List Char → Except ConvError Nat
  | acc, [] => .ok acc
  | acc, c :: cs =>
      match digit? radix c with
      | none => .error .malformed
      | some d =>
          if acc * radix + d ≤ bound then accumulate radix bound (acc * radix + d) cs
          else .error .outOfRange

def magnitude (radix bound : Nat) (digits : List Char) : Except ConvError Nat :=
  if digits.isEmpty then .error .malformed else accumulate radix bound 0 digits

def unsigned (radix : Nat) (text : List Char) : Except ConvError UInt64 :=
  match text with
  | '+' :: digits => UInt64.ofNat <$> magnitude radix (UInt64.size - 1) digits
  | digits => UInt64.ofNat <$> magnitude radix (UInt64.size - 1) digits

def signed (radix : Nat) (text : List Char) : Except ConvError Int64 :=
  match text with
  | '-' :: digits =>
      (fun n : Nat => Int64.ofInt (-n)) <$> magnitude radix Int64.minValue.toInt.natAbs digits
  | '+' :: digits =>
      (fun n : Nat => Int64.ofInt n) <$> magnitude radix Int64.maxValue.toInt.toNat digits
  | digits => (fun n : Nat => Int64.ofInt n) <$> magnitude radix Int64.maxValue.toInt.toNat digits

/-- The sign of a numeral, true for a minus, and what follows it. -/
def splitSign (text : List Char) : Bool × List Char :=
  match text with
  | '-' :: rest => (true, rest)
  | '+' :: rest => (false, rest)
  | rest => (false, rest)

def afterHexMark? (text : List Char) : Option (List Char) :=
  match text with
  | '0' :: 'x' :: rest => some rest
  | '0' :: 'X' :: rest => some rest
  | _ => none

/-- The radix announced by the first characters, and the digits after them. -/
def splitRadix (text : List Char) : Nat × List Char :=
  match afterHexMark? text with
  | some digits => (16, digits)
  | none =>
      match text with
      | '0' :: d :: digits => (8, d :: digits)
      | digits => (10, digits)

/-- A sign, then a numeral in the radix it announces. The digits are read up to
`2 ^ 127 - 1` before the signed number is held against the range of `Int64`. -/
def detected (text : List Char) : Except ConvError Int64 :=
  let (negative, rest) := splitSign text
  let (radix, digits) := splitRadix rest
  match magnitude radix (Nat.pow 2 127 - 1) digits with
  | .error e => .error e
  | .ok n =>
      let number : Int := if negative then -n else n
      if Int64.minValue.toInt ≤ number ∧ number ≤ Int64.maxValue.toInt then
        .ok (Int64.ofInt number)
      else .error .outOfRange

end GroupedOptions.Numeral
