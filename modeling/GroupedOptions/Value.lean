import GroupedOptions.Decimal

/-!
# Option values

A value is what a conversion yields or what a table row stores as it is. Its
text is plain: integers in decimal, numbers in their shortest form, characters
and strings as they stand.
-/

namespace GroupedOptions

inductive Value where
  | int (n : Int64)
  | uint (n : UInt64)
  | float (x : Binary64)
  | char (c : Char)
  | str (s : String)
  deriving DecidableEq, Repr

def Value.display : Value → String
  | .int n => toString n.toInt
  | .uint n => toString n.toNat
  | .float x => x.toText
  | .char c => String.singleton c
  | .str s => s

end GroupedOptions
