/-!
# Conversion errors

The three ways in which a value fails to reach its field: the text is not of
the required form, the number it denotes is too large or too small, or the
field holds values of another kind.
-/

namespace GroupedOptions

inductive ConvError where
  | malformed
  | outOfRange
  | mismatch
  deriving DecidableEq, Repr

def ConvError.message : ConvError → String
  | .malformed => "malformed value"
  | .outOfRange => "value out of range"
  | .mismatch => "value does not fit the field type"

end GroupedOptions
