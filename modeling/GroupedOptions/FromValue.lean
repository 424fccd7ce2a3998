import GroupedOptions.ConvError
import GroupedOptions.Value

/-!
# Values of typed fields

A field type takes the values that it can hold exactly: an integer type takes
the integers within its range, and each other kind of value goes to the types
of its own kind. Only the floating-point types round.
-/

namespace GroupedOptions

/-- A type of integers from `lo` to `hi`. -/
class BoundedInt (α : Type) where
  lo : Int
  hi : Int
  toInt : α → Int
  ofInt : Int → α
  toInt_ofInt : ∀ n, lo ≤ n → n ≤ hi → toInt (ofInt n) = n

instance : BoundedInt Int8 where
  lo := Int8.minValue.toInt
  hi := Int8.maxValue.toInt
  toInt := Int8.toInt
  ofInt := Int8.ofInt
  toInt_ofInt n h h' := by
    rw [Int8.toInt_minValue] at h
    rw [Int8.toInt_maxValue] at h'
    exact Int8.toInt_ofInt_of_le h (by omega)

instance : BoundedInt Int16 where
  lo := Int16.minValue.toInt
  hi := Int16.maxValue.toInt
  toInt := Int16.toInt
  ofInt := Int16.ofInt
  toInt_ofInt n h h' := by
    rw [Int16.toInt_minValue] at h
    rw [Int16.toInt_maxValue] at h'
    exact Int16.toInt_ofInt_of_le h (by omega)

instance : BoundedInt Int32 where
  lo := Int32.minValue.toInt
  hi := Int32.maxValue.toInt
  toInt := Int32.toInt
  ofInt := Int32.ofInt
  toInt_ofInt n h h' := by
    rw [Int32.toInt_minValue] at h
    rw [Int32.toInt_maxValue] at h'
    exact Int32.toInt_ofInt_of_le h (by omega)

instance : BoundedInt Int64 where
  lo := Int64.minValue.toInt
  hi := Int64.maxValue.toInt
  toInt := Int64.toInt
  ofInt := Int64.ofInt
  toInt_ofInt n h h' := by
    rw [Int64.toInt_minValue] at h
    rw [Int64.toInt_maxValue] at h'
    exact Int64.toInt_ofInt_of_le h (by omega)

instance : BoundedInt ISize where
  lo := ISize.minValue.toInt
  hi := ISize.maxValue.toInt
  toInt := ISize.toInt
  ofInt := ISize.ofInt
  toInt_ofInt n h h' := by
    rw [ISize.toInt_minValue] at h
    rw [ISize.toInt_maxValue] at h'
    exact ISize.toInt_ofInt_of_two_pow_numBits_le h (by omega)

instance : BoundedInt UInt8 where
  lo := 0
  hi := UInt8.size - 1
  toInt x := x.toNat
  ofInt n := UInt8.ofNat n.toNat
  toInt_ofInt n h h' := by
    simp only [UInt8.size] at h'
    rw [UInt8.toNat_ofNat']
    omega

instance : BoundedInt UInt16 where
  lo := 0
  hi := UInt16.size - 1
  toInt x := x.toNat
  ofInt n := UInt16.ofNat n.toNat
  toInt_ofInt n h h' := by
    simp only [UInt16.size] at h'
    rw [UInt16.toNat_ofNat']
    omega

instance : BoundedInt UInt32 where
  lo := 0
  hi := UInt32.size - 1
  toInt x := x.toNat
  ofInt n := UInt32.ofNat n.toNat
  toInt_ofInt n h h' := by
    simp only [UInt32.size] at h'
    rw [UInt32.toNat_ofNat']
    omega

instance : BoundedInt UInt64 where
  lo := 0
  hi := UInt64.size - 1
  toInt x := x.toNat
  ofInt n := UInt64.ofNat n.toNat
  toInt_ofInt n h h' := by
    simp only [UInt64.size] at h'
    rw [UInt64.toNat_ofNat']
    omega

instance : BoundedInt USize where
  lo := 0
  hi := USize.size - 1
  toInt x := x.toNat
  ofInt n := USize.ofNat n.toNat
  toInt_ofInt n h h' := by
    rw [USize.toNat_ofNat_of_lt' (by omega)]
    omega

/-- A type whose fields can hold some of the values. -/
class FromValue (α : Type) where
  fromValue : Value → Except ConvError α

export FromValue (fromValue)

/-- The integer as a member of a bounded type, if it lies in its range. -/
def BoundedInt.ofInt? (α : Type) [BoundedInt α] (n : Int) : Except ConvError α :=
  if lo α ≤ n ∧ n ≤ hi α then .ok (ofInt n) else .error .outOfRange

instance {α : Type} [BoundedInt α] : FromValue α where
  fromValue
    | .int n => BoundedInt.ofInt? α n.toInt
    | .uint n => BoundedInt.ofInt? α n.toNat
    | _ => .error .mismatch

instance : FromValue Binary64 where
  fromValue
    | .float x => .ok x
    | .int n => .ok (Binary.ofInt .binary64 n.toInt)
    | .uint n => .ok (Binary.ofNat .binary64 n.toNat)
    | _ => .error .mismatch

/-- A number of single precision is rounded from the one of double precision. -/
instance : FromValue Binary32 where
  fromValue v := (Binary.convert .binary32) <$> (fromValue v : Except ConvError Binary64)

instance : FromValue Bool where
  fromValue
    | .int n => .ok (n != 0)
    | .uint n => .ok (n != 0)
    | _ => .error .mismatch

instance : FromValue Char where
  fromValue
    | .char c => .ok c
    | _ => .error .mismatch

instance : FromValue String where
  fromValue
    | .str s => .ok s
    | _ => .error .mismatch

instance : FromValue Value where
  fromValue := .ok

instance {α : Type} [FromValue α] : FromValue (Option α) where
  fromValue v := some <$> fromValue v

end GroupedOptions
