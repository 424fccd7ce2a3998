import Mathlib
import GroupedOptions.Config.OfJson
import GroupedOptions.Proofs.Json.Grammar

/-!
# Integers in the range of double precision

An integer of a text is held against the range of double precision by rounding twice, once its
leading digits and once a power of ten. The main statement is that none of at most 300 digits is
refused, and so none of 64 bits.
-/
namespace GroupedOptions

namespace Binary

variable {fmt : BinaryFormat}

theorem log2_mul_two_pow_le (n k : Nat) : (n * 2 ^ k).log2 ≤ n.log2 + k := by
  by_cases hn : n * 2 ^ k = 0
  · simp [hn]
  · refine Nat.le_of_lt_succ ((Nat.log2_lt hn).mpr ?_)
    calc n * 2 ^ k
      _ < 2 ^ (n.log2 + 1) * 2 ^ k :=
        Nat.mul_lt_mul_of_pos_right Nat.lt_log2_self (Nat.two_pow_pos k)
      _ = 2 ^ (n.log2 + k + 1) := by rw [← Nat.pow_add]; congr 1; omega

theorem roundDiv_le (num den : Nat) : roundDiv num den ≤ num / den + 1 := by
  unfold roundDiv
  dsimp only
  split <;> omega

theorem scaleOf_bounds (fmt : BinaryFormat) (num den : Nat) :
    (num.log2 : Int) - den.log2 - fmt.precision ≤ scaleOf fmt num den ∧
      scaleOf fmt num den ≤ (num.log2 : Int) - den.log2 - fmt.precision + 1 := by
  unfold scaleOf
  dsimp only
  split <;> omega

/-- At the scale of a ratio its quotient has one bit more than the precision at most. -/
theorem unscale_div_lt {num den : Nat} (hden : den ≠ 0) {e : Int}
    (he : (num.log2 : Int) - den.log2 - fmt.precision ≤ e) :
    (unscale 2 num den e).1 / (unscale 2 num den e).2 < 2 ^ (fmt.precision + 1) := by
  have hpos : 0 < den * 2 ^ e.toNat := Nat.mul_pos (Nat.pos_of_ne_zero hden) (Nat.two_pow_pos _)
  refine (Nat.div_lt_iff_lt_mul hpos).mpr ?_
  calc num * 2 ^ (-e).toNat
    _ < 2 ^ (num.log2 + 1) * 2 ^ (-e).toNat :=
      Nat.mul_lt_mul_of_pos_right Nat.lt_log2_self (Nat.two_pow_pos _)
    _ = 2 ^ (num.log2 + 1 + (-e).toNat) := (Nat.pow_add ..).symm
    _ ≤ 2 ^ (fmt.precision + 1 + (den.log2 + e.toNat)) :=
      Nat.pow_le_pow_right (by decide) (by omega)
    _ = 2 ^ (fmt.precision + 1) * (2 ^ den.log2 * 2 ^ e.toNat) := by
      rw [Nat.pow_add, Nat.pow_add 2 den.log2]
    _ ≤ 2 ^ (fmt.precision + 1) * (den * 2 ^ e.toNat) :=
      Nat.mul_le_mul_left _ (Nat.mul_le_mul_right _ (Nat.log2_self_le hden))

/-- A ratio well below the greatest power of two is rounded to a finite number. -/
theorem exists_ofRatio_eq_finite (negative : Bool) {num den : Nat} (hden : den ≠ 0)
    (hmin : fmt.minExponent < fmt.maxExponent)
    (h : (num.log2 : Int) - den.log2 - fmt.precision + 2 ≤ fmt.maxExponent) :
    ∃ m e, ofRatio fmt negative num den = .finite negative m e ∧ m ≤ 2 ^ (fmt.precision + 1) ∧
      e ≤ max ((num.log2 : Int) - den.log2 - fmt.precision + 2) (fmt.minExponent + 1) := by
  by_cases hnum : num = 0
  · exact ⟨0, fmt.minExponent, by rw [ofRatio, if_pos hnum], Nat.zero_le _, by omega⟩
  obtain ⟨hlow, hhigh⟩ := scaleOf_bounds fmt num den
  obtain ⟨e, he⟩ : ∃ e, max (scaleOf fmt num den) fmt.minExponent = e := ⟨_, rfl⟩
  have hm : roundDiv (unscale 2 num den e).1 (unscale 2 num den e).2 ≤ 2 ^ (fmt.precision + 1) :=
    (roundDiv_le _ _).trans (unscale_div_lt hden (by omega))
  have hpow : 2 ^ (fmt.precision - 1) ≤ 2 ^ (fmt.precision + 1) :=
    Nat.pow_le_pow_right (by decide) (by omega)
  rw [ofRatio, if_neg hnum]
  dsimp only
  rw [he]
  -- rounding up to the next power of two moves the exponent by one
  split
  · exact ⟨_, e + 1, if_neg (by omega), hpow, by omega⟩
  · exact ⟨_, e, if_neg (by omega), hm, by omega⟩

/-- The product of two finite numbers well below the greatest power of two is finite. -/
theorem exists_mul_eq_finite {m n : Nat} {e f : Int} (hm : m ≤ 2 ^ (fmt.precision + 1))
    (hn : n ≤ 2 ^ (fmt.precision + 1)) (hmin : fmt.minExponent < fmt.maxExponent)
    (h : fmt.precision + 4 + (e + f) ≤ fmt.maxExponent) :
    ∃ m' e', mul (.finite false m e : Binary fmt) (.finite false n f) = .finite false m' e' := by
  have hprod : (m * n).log2 ≤ 2 * fmt.precision + 2 := by
    by_cases hzero : m * n = 0
    · simp [hzero]
    · refine Nat.le_of_lt_succ ((Nat.log2_lt hzero).mpr ?_)
      calc m * n
        _ ≤ 2 ^ (fmt.precision + 1) * 2 ^ (fmt.precision + 1) := Nat.mul_le_mul hm hn
        _ = 2 ^ (2 * fmt.precision + 2) := by rw [← Nat.pow_add]; congr 1; omega
        _ < 2 ^ (2 * fmt.precision + 2 + 1) := Nat.pow_lt_pow_right (by decide) (by omega)
  have hnum : (m * n * 2 ^ (e + f).toNat).log2 ≤ (m * n).log2 + (e + f).toNat :=
    log2_mul_two_pow_le _ _
  have hden : (1 * 2 ^ (-(e + f)).toNat).log2 = (-(e + f)).toNat := by
    rw [Nat.one_mul, Nat.log2_two_pow]
  have hdenPos : 1 * 2 ^ (-(e + f)).toNat ≠ 0 := by simp
  obtain ⟨m', e', hround, -, -⟩ := @exists_ofRatio_eq_finite fmt (false != false)
    (m * n * 2 ^ (- -(e + f)).toNat) _ hdenPos hmin (by rw [hden, Int.neg_neg]; omega)
  exact ⟨m', e', hround⟩

end Binary

namespace Json

theorem digit_le_nine {c : Char} (h : c.isDigit = true) : c.toNat - '0'.toNat ≤ 9 := by
  simp only [Char.isDigit, Bool.and_eq_true, decide_eq_true_eq, ge_iff_le,
    UInt32.le_iff_toNat_le] at h
  have hle : c.toNat ≤ '9'.toNat := h.2
  exact Nat.sub_le_of_le_add hle

/-- The leading digits and the digits left over are no more than all digits. -/
theorem fill_bound {digits : List Char} (h : ∀ c ∈ digits, c.isDigit = true) (n : Nat) :
    ((Literal.fill n digits).1 + 1) * 10 ^ (Literal.fill n digits).2.length ≤
      (n + 1) * 10 ^ digits.length := by
  induction digits generalizing n with
  | nil => exact Nat.le_refl _
  | cons c cs ih =>
    have hdigit := digit_le_nine (h c List.mem_cons_self)
    rw [Literal.fill]
    split
    · calc _
        _ ≤ (10 * n + (c.toNat - '0'.toNat) + 1) * 10 ^ cs.length :=
          ih (fun d hd => h d (List.mem_cons_of_mem c hd)) _
        _ ≤ ((n + 1) * 10) * 10 ^ cs.length := Nat.mul_le_mul_right _ (by omega)
        _ = (n + 1) * 10 ^ (c :: cs).length := by
          rw [List.length_cons, Nat.pow_succ, Nat.mul_assoc, Nat.mul_comm 10]
    · exact Nat.le_refl _

theorem significand_integer (negative : Bool) (digits : List Char) :
    (Literal.integer negative digits).significand =
      ((Literal.fill 0 digits).1, ((Literal.fill 0 digits).2.length : Int)) := by
  simp [Literal.significand, Literal.integer, Literal.fill]

/-- The leading digits and the power of ten after them, by their logarithms. -/
theorem log2_fill_lt {digits : List Char} {k : Nat} (hdigits : ∀ c ∈ digits, c.isDigit = true)
    (hlength : digits.length ≤ 3 * k) (hzero : (Literal.fill 0 digits).1 ≠ 0) :
    (Literal.fill 0 digits).1.log2 + (10 ^ (Literal.fill 0 digits).2.length).log2 < 10 * k := by
  have hfill := fill_bound hdigits 0
  generalize Literal.fill 0 digits = filled at hfill hzero ⊢
  obtain ⟨n, beyond⟩ := filled
  refine (Nat.pow_lt_pow_iff_right (by decide : 1 < 2)).mp ?_
  calc 2 ^ (n.log2 + (10 ^ beyond.length).log2)
    _ = 2 ^ n.log2 * 2 ^ (10 ^ beyond.length).log2 := Nat.pow_add ..
    _ ≤ n * 10 ^ beyond.length :=
      Nat.mul_le_mul (Nat.log2_self_le hzero) (Nat.log2_self_le (by simp))
    _ < (n + 1) * 10 ^ beyond.length :=
      Nat.mul_lt_mul_of_pos_right (Nat.lt_succ_self n) (Nat.pow_pos (by decide))
    _ ≤ 1 * 10 ^ digits.length := hfill
    _ = 10 ^ digits.length := Nat.one_mul _
    _ ≤ 10 ^ (3 * k) := Nat.pow_le_pow_right (by decide) hlength
    _ = (10 ^ 3) ^ k := Nat.pow_mul ..
    _ ≤ (2 ^ 10) ^ k := Nat.pow_le_pow_left (by decide) k
    _ = 2 ^ (10 * k) := (Nat.pow_mul ..).symm

theorem length_fill_le {digits : List Char} (hdigits : ∀ c ∈ digits, c.isDigit = true) :
    (Literal.fill 0 digits).2.length ≤ digits.length := by
  refine (Nat.pow_le_pow_iff_right (by decide : 1 < 10)).mp ?_
  calc 10 ^ (Literal.fill 0 digits).2.length
    _ ≤ ((Literal.fill 0 digits).1 + 1) * 10 ^ (Literal.fill 0 digits).2.length :=
      Nat.le_mul_of_pos_left _ (Nat.succ_pos _)
    _ ≤ (0 + 1) * 10 ^ digits.length := fill_bound hdigits 0
    _ = 10 ^ digits.length := Nat.one_mul _

/-- No integer of at most 300 digits is out of range. -/
theorem inRange_integer (negative : Bool) {digits : List Char}
    (hdigits : ∀ c ∈ digits, c.isDigit = true) (hlength : digits.length ≤ 300) :
    (Literal.integer negative digits).inRange = true := by
  have hlog := @log2_fill_lt digits 100 hdigits hlength
  have hplace := length_fill_le hdigits
  rw [Literal.inRange, significand_integer]
  generalize Literal.fill 0 digits = filled at hlog hplace ⊢
  obtain ⟨n, beyond⟩ := filled
  by_cases hzero : n = 0
  · simp [hzero]
  have hlog : n.log2 + (10 ^ beyond.length).log2 < 10 * 100 := hlog hzero
  have hplace : beyond.length ≤ digits.length := hplace
  have hmax : ¬ Int32.maxValue.toInt < 0 := by decide
  have hone : Nat.log2 1 = 0 := by decide
  obtain ⟨m, e, hn, hm, he⟩ := @Binary.exists_ofRatio_eq_finite .binary64 false n 1 (by decide)
    (by decide) (by simp only [BinaryFormat.binary64, hone]; omega)
  obtain ⟨m', e', hn', hm', he'⟩ := @Binary.exists_ofRatio_eq_finite .binary64 false
    (10 ^ beyond.length) 1 (by decide) (by decide)
    (by simp only [BinaryFormat.binary64, hone]; omega)
  obtain ⟨m'', e'', hmul⟩ := @Binary.exists_mul_eq_finite .binary64 m m' e e' hm hm' (by decide)
    (by simp only [BinaryFormat.binary64, hone] at he he' ⊢; omega)
  simp only [Literal.integer, if_neg hzero, if_neg hmax, Int.add_zero, Int.toNat_natCast]
  rw [if_neg (by omega), if_neg (by omega)]
  have hn : Binary.ofNat .binary64 n = .finite false m e := hn
  have hn' : Binary.ofNat .binary64 (Nat.pow 10 beyond.length) = .finite false m' e' := hn'
  rw [hn, hn', hmul]

def Literal.ofInt (n : Int) : Literal := .integer (n < 0) (Nat.toDigits 10 n.natAbs)

theorem int?_ofInt (n : Int) : (Literal.ofInt n).int? = some n := by
  have hdigits : Decimal.ofDigits (Nat.toDigits 10 n.natAbs) = n.natAbs :=
    Nat.ofDigitChars_ten_toDigits
  simp only [Literal.int?, Literal.ofInt, Literal.integer, hdigits, List.isEmpty_nil, Bool.not_true,
    Option.isSome_none, Bool.or_self, Bool.false_eq_true, if_false, decide_eq_true_eq]
  split
  · rw [if_neg (by omega)]
    exact congrArg some (by omega)
  · exact congrArg some (by omega)

theorem inRange_ofInt (n : Int64) : (Literal.ofInt n.toInt).inRange = true := by
  have hlow := n.le_toInt
  have hhigh := n.toInt_lt
  have habs : n.toInt.natAbs < 10 ^ 20 := by omega
  refine inRange_integer _ (fun c hc => Nat.isDigit_of_mem_toDigits (by decide) (by decide) hc) ?_
  exact ((Nat.length_toDigits_le_iff (by decide) (by decide)).mpr habs).trans (by decide)

end Json

theorem OptionDecl.fixed?_ofInt (n : Int64) :
    fixed? (.number (.ofInt n.toInt)) = some n := by
  have hlow : Int64.minValue.toInt ≤ n.toInt := n.minValue_le_toInt
  have hhigh : n.toInt ≤ Int64.maxValue.toInt := n.toInt_le
  rw [fixed?, Json.int?_ofInt, Option.bind_some, if_pos ⟨hlow, hhigh⟩, Int64.ofInt_toInt]

end GroupedOptions
