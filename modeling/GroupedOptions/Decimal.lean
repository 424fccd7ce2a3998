import GroupedOptions.Binary

/-!
# Decimal text of binary numbers

Text is read as an exact decimal and rounded once. A number is written with
the fewest digits that read back as itself, of these the nearest to it, a tie
going away from zero, and always in positional form without an exponent.
-/

namespace GroupedOptions

/-- The number `significand * 10 ^ exponent`. -/
structure Decimal where
  significand : Nat
  exponent : Int
  deriving DecidableEq, Repr

namespace Decimal

def ofDigits (digits : List Char) : Nat :=
  digits.foldl (fun n c => 10 * n + (c.toNat - '0'.toNat)) 0

def digitCount (n : Nat) : Nat := (Nat.toDigits 10 n).length

/-- The nearest number of the format. Decimals whose digits stand far outside its range
are settled by their place alone, since `10 ^ n` is at least `2 ^ (3 * n)`. -/
def toBinary (fmt : BinaryFormat) (negative : Bool) (d : Decimal) : Binary fmt :=
  let place : Int := digitCount d.significand + d.exponent
  if d.significand = 0 then .finite negative 0 fmt.minExponent
  else if fmt.maxExponent + fmt.precision < 3 * (place - 1) then .infinite negative
  else if place < 0 ∧ 3 * place < fmt.minExponent - 2 then .finite negative 0 fmt.minExponent
  else
    let (num, den) := Binary.unscale 10 d.significand 1 (-d.exponent)
    Binary.ofRatio fmt negative num den

def plain (d : Decimal) : String :=
  let digits := Nat.toDigits 10 d.significand
  if 0 ≤ d.exponent then String.ofList (digits ++ List.replicate d.exponent.toNat '0')
  else
    let places := (-d.exponent).toNat
    if places < digits.length then
      String.ofList (digits.take (digits.length - places) ++
        '.' :: digits.drop (digits.length - places))
    else String.ofList ('0' :: '.' :: List.replicate (places - digits.length) '0' ++ digits)

def exponent? (text : List Char) : Option Int :=
  match text with
  | '-' :: digits => (natural? digits).map fun n => -(n : Int)
  | '+' :: digits => (natural? digits).map fun n => (n : Int)
  | digits => (natural? digits).map fun n => (n : Int)
where
  natural? (digits : List Char) : Option Nat :=
    if digits.isEmpty || !digits.all Char.isDigit then none else some (ofDigits digits)

/-- Digits with an optional point, at least one of them on either side of it, and an
optional exponent. -/
def read? (text : List Char) : Option Decimal :=
  let whole := text.takeWhile Char.isDigit
  let (fraction, rest) :=
    match text.dropWhile Char.isDigit with
    | '.' :: rest => (rest.takeWhile Char.isDigit, rest.dropWhile Char.isDigit)
    | rest => ([], rest)
  if whole.isEmpty && fraction.isEmpty then none
  else
    let mantissa : Decimal := ⟨ofDigits (whole ++ fraction), -fraction.length⟩
    match rest with
    | [] => some mantissa
    | c :: rest =>
        if c = 'e' ∨ c = 'E' then
          (exponent? rest).map fun e => ⟨mantissa.significand, mantissa.exponent + e⟩
        else none

/-- Searches ever finer grids, from multiples of `10 ^ k` down, for a point that reads back
as `target`, the binary number of the given ratio. -/
def shortestFrom (target : Binary fmt) (num den : Nat) : Nat → Int → Decimal
  | 0, k => ⟨num, k⟩
  | fuel + 1, k =>
      let (n, d) := Binary.unscale 10 num den k
      let below : Decimal := ⟨n / d, k⟩
      let above : Decimal := ⟨n / d + 1, k⟩
      let readsBack (x : Decimal) : Bool := x.toBinary fmt false = target
      match readsBack below, readsBack above with
      | true, true => if d ≤ 2 * (n % d) then above else below
      | true, false => below
      | false, true => above
      | false, false => shortestFrom target num den fuel (k - 1)

def shortest (fmt : BinaryFormat) (significand : Nat) (exponent : Int) : Decimal :=
  let (num, den) := Binary.ratio significand exponent
  let highest : Int := (num.log2 - den.log2 + 2) * 30103 / 100000 + 1
  let target : Binary fmt := .finite false significand exponent
  shortestFrom target num den (fmt.precision + 2) highest

end Decimal

namespace Binary

variable {fmt : BinaryFormat}

/-- The special names in any case, and decimals, each after an optional sign. -/
def read? (fmt : BinaryFormat) (text : List Char) : Option (Binary fmt) :=
  let (negative, rest) :=
    match text with
    | '-' :: rest => (true, rest)
    | '+' :: rest => (false, rest)
    | rest => (false, rest)
  let word := String.ofList (rest.map Char.toLower)
  if word = "inf" ∨ word = "infinity" then some (.infinite negative)
  else if word = "nan" then some .nan
  else (Decimal.read? rest).map fun d => d.toBinary fmt negative

def toText : Binary fmt → String
  | nan => "NaN"
  | infinite negative => signed negative "inf"
  | finite negative m e => signed negative (if m = 0 then "0" else (Decimal.shortest fmt m e).plain)
where
  signed (negative : Bool) (magnitude : String) : String :=
    if negative then "-" ++ magnitude else magnitude

end Binary

end GroupedOptions
