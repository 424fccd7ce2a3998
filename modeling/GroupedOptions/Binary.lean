/-!
# Binary floating-point numbers

A finite number is a significand times a power of two, held exactly. Every
operation takes the exact result as a ratio of natural numbers and rounds it
once, to the nearest number of the format and a tie to the even significand.
-/

namespace GroupedOptions

/-- A binary interchange format: the bits of a significand, and the least and
greatest power of two that its last bit may stand for. -/
structure BinaryFormat where
  precision : Nat
  minExponent : Int
  maxExponent : Int
  deriving DecidableEq, Repr

namespace BinaryFormat

def binary32 : BinaryFormat := ⟨24, -149, 104⟩

def binary64 : BinaryFormat := ⟨53, -1074, 971⟩

end BinaryFormat

/-- A number of the given format; infinities and zeros carry a sign. -/
inductive Binary (fmt : BinaryFormat) where
  | nan
  | infinite (negative : Bool)
  | finite (negative : Bool) (significand : Nat) (exponent : Int)
  deriving DecidableEq, Repr

abbrev Binary64 := Binary .binary64

abbrev Binary32 := Binary .binary32

namespace Binary

variable {fmt : BinaryFormat}

/-- The integer nearest to a ratio, a tie going to the even one. -/
def roundDiv (num den : Nat) : Nat :=
  let q := num / den
  let twice := 2 * (num % den)
  if den < twice ∨ den = twice ∧ q % 2 = 1 then q + 1 else q

def unscale (base num den : Nat) (e : Int) : Nat × Nat :=
  (num * Nat.pow base (-e).toNat, den * Nat.pow base e.toNat)

/-- The exponent at which the ratio has a significand of `precision` bits before rounding. -/
def scaleOf (fmt : BinaryFormat) (num den : Nat) : Int :=
  let low : Int := num.log2 - den.log2 - fmt.precision
  let (n, d) := unscale 2 num den low
  if Nat.pow 2 fmt.precision ≤ n / d then low + 1 else low

/-- The number of the format nearest to a ratio, infinite beyond the greatest one. -/
def ofRatio (fmt : BinaryFormat) (negative : Bool) (num den : Nat) : Binary fmt :=
  if num = 0 then .finite negative 0 fmt.minExponent
  else
    let e := max (scaleOf fmt num den) fmt.minExponent
    let (n, d) := unscale 2 num den e
    let m := roundDiv n d
    let (m, e) :=
      if m = Nat.pow 2 fmt.precision then (Nat.pow 2 (fmt.precision - 1), e + 1) else (m, e)
    if fmt.maxExponent < e then .infinite negative else .finite negative m e

def ofNat (fmt : BinaryFormat) (n : Nat) : Binary fmt := ofRatio fmt false n 1

def ofInt (fmt : BinaryFormat) (n : Int) : Binary fmt := ofRatio fmt (n < 0) n.natAbs 1

/-- The magnitude of a finite number as a ratio. -/
def ratio (significand : Nat) (exponent : Int) : Nat × Nat :=
  unscale 2 significand 1 (-exponent)

/-- The product, which is no number where a zero meets an infinity. -/
def mul : Binary fmt → Binary fmt → Binary fmt
  | finite s m e, finite t n f =>
      let (num, den) := ratio (m * n) (e + f)
      ofRatio fmt (s != t) num den
  | infinite s, finite t n _ => if n = 0 then nan else infinite (s != t)
  | finite s m _, infinite t => if m = 0 then nan else infinite (s != t)
  | infinite s, infinite t => infinite (s != t)
  | _, _ => nan

def convert (target : BinaryFormat) : Binary fmt → Binary target
  | nan => nan
  | infinite negative => infinite negative
  | finite negative m e => ofRatio target negative (ratio m e).1 (ratio m e).2

/-- The interchange encoding: sign, biased exponent, significand without its leading
bit. No number of its own stands for the many patterns that are not a number. -/
def bits? : Binary fmt → Option Nat
  | nan => none
  | infinite negative => some (pattern negative (top fmt) 0)
  | finite negative m e =>
      if m < Nat.pow 2 (fmt.precision - 1) then some (pattern negative 0 m)
      else
        some (pattern negative (e - fmt.minExponent + 1).toNat
          (m - Nat.pow 2 (fmt.precision - 1)))
where
  top (fmt : BinaryFormat) : Nat := (fmt.maxExponent - fmt.minExponent + 2).toNat
  pattern (negative : Bool) (biased fraction : Nat) : Nat :=
    ((if negative then top fmt + 1 else 0) + biased) * Nat.pow 2 (fmt.precision - 1) + fraction

end Binary

end GroupedOptions
