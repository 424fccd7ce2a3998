import Mathlib
import GroupedOptions.Conversion
import GroupedOptions.Proofs.Numeral.Detected

/-!
# Agreement of the integer conversions

The conversion that goes by the announced radix reads a text as the conversion for that radix does.
They part on a plus sign after a hexadecimal mark: the first refuses a sign there, and the
hexadecimal conversion hands what follows the mark to a reader that takes a plus sign of its own.
-/
namespace GroupedOptions

/-- The number in a value of one of the integer conversions. -/
def Value.number? : Value → Option ℤ
  | .int n => some n.toInt
  | .uint n => some n.toNat
  | _ => none

namespace Conversion

/-- The conversion that the first characters of a text select. -/
inductive Selects : List Char → Conversion → Prop
  | hex {mark rest} : mark = 'x' ∨ mark = 'X' → Selects ('0' :: mark :: rest) .hex
  | octal {rest} : rest.head? ≠ some 'x' ∧ rest.head? ≠ some 'X' → Selects ('0' :: rest) .octal
  | decimal {text} : (∀ c ∈ text.head?, c ≠ '0' ∧ c ≠ '+' ∧ c ≠ '-') → Selects text .signed
  | signed {sign rest} : sign = '+' ∨ sign = '-' → rest.head? ≠ some '0' →
      Selects (sign :: rest) .signed

/-- The conversion makes an integer of the text, which is `z`. -/
def Yields (c : Conversion) (text : String) (z : ℤ) : Prop :=
  ∃ value, c.convert text = .ok value ∧ value.number? = some z

/-- A hexadecimal numeral for `z` with a plus sign after the mark. -/
def PlusAfterMark (text : List Char) (z : ℤ) : Prop :=
  ∃ mark rest n, (mark = 'x' ∨ mark = 'X') ∧ text = '0' :: mark :: '+' :: rest ∧
    Numeral.Denotes 16 rest n ∧ z = n

end Conversion

namespace Numeral

variable {text digits : List Char} {radix n : ℕ} {m : Int64}

theorem denotes_zero_cons_iff :
    Denotes 8 ('0' :: digits) n ↔ digits = [] ∧ n = 0 ∨ Denotes 8 digits n := by
  have hread (digits : List Char) : Denotes 8 digits n ↔ magnitude 8 n digits = .ok n := by
    rw [magnitude_eq_ok_iff (by decide), and_iff_left le_rfl]
  have hzero : magnitude 8 n ('0' :: digits) = accumulate 8 n 0 digits := by
    have hdigit : digit? 8 '0' = some 0 := by decide
    simp [magnitude, accumulate, hdigit]
  rw [hread, hread, hzero]
  cases digits with
  | nil => simp [magnitude, accumulate, eq_comm]
  | cons c digits => simp [magnitude]

theorem ofInt_withSign_eq_ok_iff (negative : Bool) :
    (fun n : ℕ => Int64.ofInt (withSign negative n)) <$>
        magnitude 10 (if negative then 2 ^ 63 else 2 ^ 63 - 1) digits = .ok m ↔
      ∃ n, Denotes 10 digits n ∧ withSign negative n = m.toInt := by
  have hle := m.le_toInt
  have hlt := m.toInt_lt
  have hrange (n : ℕ) : n ≤ (if negative then 2 ^ 63 else 2 ^ 63 - 1) ↔
      -2 ^ 63 ≤ withSign negative n ∧ withSign negative n < 2 ^ 63 := by
    cases negative <;> simp [withSign] <;> omega
  simp only [map_eq_ok_iff, magnitude_eq_ok_iff (show 10 ≤ 16 by decide), hrange]
  constructor
  · rintro ⟨n, ⟨hn, hbounds⟩, hofInt⟩
    exact ⟨n, hn, (ofInt_eq_iff hbounds).mp hofInt⟩
  · rintro ⟨n, hn, hsigned⟩
    have hbounds : -2 ^ 63 ≤ withSign negative n ∧ withSign negative n < 2 ^ 63 := by omega
    exact ⟨n, ⟨hn, hbounds⟩, (ofInt_eq_iff hbounds).mpr hsigned⟩

theorem signed_eq_ok_iff : signed 10 text = .ok m ↔
    ∃ n, Denotes 10 (splitSign text).2 n ∧ withSign (splitSign text).1 n = m.toInt := by
  have hmin : Int64.minValue.toInt.natAbs = 2 ^ 63 := by decide
  have hmax : Int64.maxValue.toInt.toNat = 2 ^ 63 - 1 := by decide
  unfold signed splitSign
  rw [hmin, hmax]
  split
  next digits => exact ofInt_withSign_eq_ok_iff true
  next digits => exact ofInt_withSign_eq_ok_iff false
  next digits => exact ofInt_withSign_eq_ok_iff false

theorem exists_ofNat_eq_ok_iff (h : radix ≤ 16) :
    (∃ k, UInt64.ofNat <$> magnitude radix (UInt64.size - 1) digits = .ok k ∧
        (k.toNat : ℤ) = m.toInt) ↔
      ∃ n, Denotes radix digits n ∧ (n : ℤ) = m.toInt := by
  have hsize : UInt64.size = 2 ^ 64 := rfl
  have hlt := m.toInt_lt
  simp only [map_eq_ok_iff, magnitude_eq_ok_iff h]
  constructor
  · rintro ⟨_, ⟨n, ⟨hn, hle⟩, rfl⟩, hk⟩
    rw [UInt64.toNat_ofNat_of_lt' (by omega)] at hk
    exact ⟨n, hn, hk⟩
  · rintro ⟨n, hn, hk⟩
    exact ⟨_, ⟨n, ⟨hn, by omega⟩, rfl⟩, by rw [UInt64.toNat_ofNat_of_lt' (by omega), hk]⟩

theorem unsigned_of_head?_ne (h : text.head? ≠ some '+') :
    unsigned radix text = UInt64.ofNat <$> magnitude radix (UInt64.size - 1) text := by
  unfold unsigned
  split
  next digits => exact absurd rfl h
  next => rfl

/-- A sign is no digit, so no number is read after a second one. -/
theorem detected_of_plus_after_mark {mark : Char} (h : mark = 'x' ∨ mark = 'X') :
    detected ('0' :: mark :: '+' :: digits) = .error .malformed := by
  have hsign : splitSign ('0' :: mark :: '+' :: digits) =
      (false, '0' :: mark :: '+' :: digits) := rfl
  have hread : magnitude 16 (2 ^ 127 - 1) ('+' :: digits) = .error .malformed := by
    have hdigit : digit? 16 '+' = none := by decide
    simp [magnitude, accumulate, hdigit]
  rw [detected_eq, hsign, splitRadix_hex h, hread]
  rfl

end Numeral

namespace Conversion

open Numeral

variable {c : Conversion} {text : String} {rest digits : List Char} {mark : Char} {n : ℕ}
  {m : Int64} {z : ℤ}

theorem announces_hex_iff (h : mark = 'x' ∨ mark = 'X') :
    Announces ('0' :: mark :: rest) n ↔ Denotes 16 rest n := by
  rw [announces_iff, splitRadix_hex h]

theorem announces_octal_iff (h : rest.head? ≠ some 'x' ∧ rest.head? ≠ some 'X') :
    Announces ('0' :: rest) n ↔ Denotes 8 ('0' :: rest) n := by
  rw [announces_iff, denotes_zero_cons_iff]
  cases rest with
  | nil =>
    have hzero : splitRadix ['0'] = (10, ['0']) := rfl
    have hnil : ¬ Denotes 8 [] n := not_denotes_nil
    simp [hzero, denotes_zero_iff, hnil]
  | cons c digits =>
    have hoctal : splitRadix ('0' :: c :: digits) = (8, c :: digits) :=
      splitRadix_octal (by simpa using h)
    simp [hoctal]

theorem announces_decimal_iff (h : rest.head? ≠ some '0') :
    Announces rest n ↔ Denotes 10 rest n := by
  rw [announces_iff, splitRadix_decimal h]

theorem convert_detected_iff : detected.convert text = .ok (.int m) ↔
    ∃ n, Announces (splitSign text.toList).2 n ∧
      withSign (splitSign text.toList).1 n = m.toInt := by
  have hconvert : detected.convert text = Value.int <$> Numeral.detected text.toList := rfl
  simp [hconvert, map_eq_ok_iff, detected_eq_ok_iff, announcesInt_iff]

theorem yields_signed_iff : signed.Yields text m.toInt ↔
    ∃ n, Denotes 10 (splitSign text.toList).2 n ∧
      withSign (splitSign text.toList).1 n = m.toInt := by
  have hconvert : signed.convert text = Value.int <$> Numeral.signed 10 text.toList := rfl
  rw [← signed_eq_ok_iff, Yields]
  simp [hconvert, map_eq_ok_iff, Value.number?, Int64.toInt_inj]

theorem yields_of_convert_eq_uint {x : Except ConvError UInt64}
    (h : c.convert text = Value.uint <$> x) :
    c.Yields text z ↔ ∃ k, x = .ok k ∧ (k.toNat : ℤ) = z := by
  simp [Yields, h, map_eq_ok_iff, Value.number?]

theorem yields_octal_iff (h : text.toList = '0' :: rest) : octal.Yields text m.toInt ↔
    ∃ n, Denotes 8 ('0' :: rest) n ∧ (n : ℤ) = m.toInt := by
  rw [yields_of_convert_eq_uint (c := .octal) rfl, h, ← exists_ofNat_eq_ok_iff (by decide)]
  rfl

theorem convert_hex (hmark : mark = 'x' ∨ mark = 'X') (h : text.toList = '0' :: mark :: rest) :
    hex.convert text = Value.uint <$> Numeral.unsigned 16 rest := by
  simp [convert, h, afterHexMark?_hex hmark]

theorem yields_hex_iff (hmark : mark = 'x' ∨ mark = 'X') (h : text.toList = '0' :: mark :: rest)
    (hplus : rest.head? ≠ some '+') :
    hex.Yields text m.toInt ↔ ∃ n, Denotes 16 rest n ∧ (n : ℤ) = m.toInt := by
  rw [yields_of_convert_eq_uint (convert_hex hmark h), unsigned_of_head?_ne hplus,
    exists_ofNat_eq_ok_iff (by decide)]

theorem yields_hex_plus_iff (hmark : mark = 'x' ∨ mark = 'X')
    (h : text.toList = '0' :: mark :: '+' :: digits) :
    hex.Yields text m.toInt ↔ ∃ n, Denotes 16 digits n ∧ (n : ℤ) = m.toInt := by
  rw [yields_of_convert_eq_uint (convert_hex hmark h), ← exists_ofNat_eq_ok_iff (by decide)]
  rfl

theorem Selects.eq_hex (h : Selects ('0' :: mark :: rest) c) (hmark : mark = 'x' ∨ mark = 'X') :
    c = .hex := by
  cases h with
  | hex => rfl
  | octal hrest => rcases hmark with rfl | rfl <;> simp at hrest
  | decimal hhead => simp at hhead
  | signed hsign => rcases hsign with hsign | hsign <;> cases hsign

theorem yields_iff_of_not_plusAfterMark (h : Selects text.toList c)
    (hnot : ¬ PlusAfterMark text.toList m.toInt) :
    detected.convert text = .ok (.int m) ↔ c.Yields text m.toInt := by
  rw [convert_detected_iff]
  generalize htext : text.toList = chars at h hnot
  cases h with
  | @hex mark rest hmark =>
    have hsign : splitSign ('0' :: mark :: rest) = (false, '0' :: mark :: rest) := rfl
    simp only [hsign, announces_hex_iff hmark]
    by_cases hplus : rest.head? = some '+'
    · -- Neither yields anything here.
      obtain ⟨digits, rfl⟩ := List.head?_eq_some_iff.mp hplus
      rw [yields_hex_plus_iff hmark htext]
      constructor
      · rintro ⟨n, hn, -⟩
        exact absurd hn (not_denotes_sign (by decide) (.inl rfl))
      · rintro ⟨n, hn, hz⟩
        exact absurd ⟨mark, digits, n, hmark, rfl, hn, hz.symm⟩ hnot
    · rw [yields_hex_iff hmark htext hplus]
      rfl
  | @octal rest hrest =>
    have hsign : splitSign ('0' :: rest) = (false, '0' :: rest) := rfl
    rw [yields_octal_iff htext, hsign]
    simp only [announces_octal_iff hrest]
    rfl
  | decimal hhead =>
    have hsign : splitSign chars = (false, chars) := by
      apply splitSign_of_ne_sign
      rintro c rest rfl
      exact (hhead c rfl).2
    have hzero : chars.head? ≠ some '0' := fun hzero => (hhead '0' hzero).1 rfl
    rw [yields_signed_iff, htext, hsign]
    simp only [announces_decimal_iff hzero]
  | @signed sign rest hsign hhead =>
    rw [yields_signed_iff, htext]
    rcases hsign with rfl | rfl
    · simp only [splitSign, announces_decimal_iff hhead]
    · simp only [splitSign, announces_decimal_iff hhead]

/-- The conversion by the announced radix reads as the one that the text selects, but for a plus
sign after a hexadecimal mark, which it refuses. -/
theorem convert_detected_eq_ok_iff (h : Selects text.toList c) (m : Int64) :
    (¬ PlusAfterMark text.toList m.toInt →
      (detected.convert text = .ok (.int m) ↔ c.Yields text m.toInt)) ∧
    (PlusAfterMark text.toList m.toInt →
      detected.convert text = .error .malformed ∧ c.Yields text m.toInt) := by
  refine ⟨yields_iff_of_not_plusAfterMark h, ?_⟩
  rintro ⟨mark, digits, n, hmark, htext, hn, hz⟩
  obtain rfl : c = .hex := by
    rw [htext] at h
    exact h.eq_hex hmark
  constructor
  · have hconvert : detected.convert text = Value.int <$> Numeral.detected text.toList := rfl
    rw [hconvert, htext, detected_of_plus_after_mark hmark]
    rfl
  · exact (yields_hex_plus_iff hmark htext).mpr ⟨n, hn, hz.symm⟩

theorem convert_detected_eq_ok_iff_octal :
    Selects "017".toList .octal ∧ octal.Yields "017" 15 ∧
      detected.convert "017" = .ok (.int 15) := by
  have hselects : Selects "017".toList .octal := .octal (by decide)
  have hyields : octal.Yields "017" 15 := ⟨.uint 15, rfl, rfl⟩
  have hnot : ¬ PlusAfterMark "017".toList 15 := by
    rintro ⟨mark, rest, n, -, htext, -⟩
    cases htext
  exact ⟨hselects, hyields, ((convert_detected_eq_ok_iff hselects 15).1 hnot).mpr hyields⟩

/-- The hexadecimal conversion reads `0x+1`, and the one that goes by the mark does not. -/
theorem convert_detected_ne_of_plus_after_mark : Selects "0x+1".toList .hex ∧
    ¬ (detected.convert "0x+1" = .ok (.int 1) ↔ hex.Yields "0x+1" 1) := by
  refine ⟨.hex (.inl rfl), ?_⟩
  have hyields : hex.Yields "0x+1" 1 := ⟨.uint 1, rfl, rfl⟩
  have hdetected : detected.convert "0x+1" = .error .malformed := rfl
  simp [hyields, hdetected]

end Conversion

end GroupedOptions
