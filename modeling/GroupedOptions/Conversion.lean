import GroupedOptions.Numeral
import GroupedOptions.Value

/-!
# Conversion directives

A directive is a percent sign, any number of length modifiers, which say
nothing here, and one conversion letter. A conversion takes the whole of a
text or fails.
-/

namespace GroupedOptions

inductive Conversion where
  | signed
  | unsigned
  | detected
  | hex
  | octal
  | float
  | char
  | str
  deriving DecidableEq, Repr

namespace Conversion

def ofLetters? (letters : List Char) : Option Conversion :=
  match letters with
  | ['d'] => some signed
  | ['u'] => some unsigned
  | ['i'] => some detected
  | ['x'] => some hex
  | ['X'] => some hex
  | ['o'] => some octal
  | [c] =>
      if c ∈ ['f', 'F', 'e', 'E', 'g', 'G', 'a', 'A'] then some float
      else if c = 'c' then some char
      else if c = 's' then some str
      else none
  | _ => none

/-- A letter that in a directive gives the width of the destination. -/
def isLengthModifier (c : Char) : Bool :=
  c ∈ ['h', 'l', 'j', 'z', 't', 'L', 'q']

/-- Reads a single supported directive; field widths and suppression are not among them. -/
def parse? (spec : String) : Option Conversion :=
  match spec.toList with
  | '%' :: letters => ofLetters? (letters.dropWhile isLengthModifier)
  | _ => none

def convert (c : Conversion) (text : String) : Except ConvError Value :=
  let chars := text.toList
  match c with
  | signed => Value.int <$> Numeral.signed 10 chars
  | unsigned => Value.uint <$> Numeral.unsigned 10 chars
  | detected => Value.int <$> Numeral.detected chars
  | hex => Value.uint <$> Numeral.unsigned 16 ((Numeral.afterHexMark? chars).getD chars)
  | octal => Value.uint <$> Numeral.unsigned 8 chars
  | float => (Binary.read? .binary64 chars).elim (.error .malformed) fun x => .ok (.float x)
  | char =>
      match chars with
      | [c] => .ok (.char c)
      | _ => .error .malformed
  | str => .ok (.str text)

end Conversion

end GroupedOptions
