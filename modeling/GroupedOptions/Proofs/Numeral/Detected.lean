import Mathlib
import GroupedOptions.Conversion
import GroupedOptions.Proofs.Numeral.Digits

/-!
# Numerals that announce their radix

A numeral says by its first characters in which radix its digits are. The main statement is that the
conversion which goes by them takes exactly the numerals of 64 bits, and says of a longer one that
it is out of range.
-/
namespace GroupedOptions

namespace Numeral

/-- A numeral in the radix that it announces: sixteen by `0x` or `0X`, eight by another `0`. -/
inductive Announces : List Char → ℕ → Prop
  | hex {mark digits n} : mark = 'x' ∨ mark = 'X' → Denotes 16 digits n →
      Announces ('0' :: mark :: digits) n
  | octal {digits n} : Denotes 8 digits n → Announces ('0' :: digits) n
  | zero : Announces ['0'] 0
  | decimal {digits n} : digits.head? ≠ some '0' → Denotes 10 digits n → Announces digits n

/-- The same after an optional sign. -/
inductive AnnouncesInt : List Char → ℤ → Prop
  | unsigned {text n} : Announces text n → AnnouncesInt text n
  | plus {text n} : Announces text n → AnnouncesInt ('+' :: text) n
  | minus {text n} : Announces text n → AnnouncesInt ('-' :: text) (-n)

variable {text digits : List Char} {radix n : ℕ} {c : Char} {z : ℤ}

theorem Denotes.digit?_ne_none (h : radix ≤ 16) (hn : Denotes radix (c :: digits) n) :
    digit? radix c ≠ none := by
  obtain ⟨_, ds, hds, _⟩ := hn
  cases hds with
  | cons hc _ => simp [(digit?_eq_some_iff h).mpr hc]

theorem not_denotes_sign (h : radix ≤ 16) (hc : c = '+' ∨ c = '-') :
    ¬ Denotes radix (c :: digits) n := by
  intro hn
  rcases hc with rfl | rfl <;> exact hn.digit?_ne_none h rfl

theorem denotes_zero_iff : Denotes 10 ['0'] n ↔ n = 0 := by
  have hread : ∀ bound, magnitude 10 bound ['0'] = .ok 0 := by
    intro bound
    have hdigit : digit? 10 '0' = some 0 := by decide
    simp [magnitude, accumulate, hdigit]
  constructor
  · intro hn
    have hmagnitude := (magnitude_eq_ok_iff (by decide)).mpr ⟨hn, le_rfl⟩
    exact Except.ok.inj (hmagnitude.symm.trans (hread n))
  · rintro rfl
    exact denotes_of_magnitude (by decide) (hread 0)

theorem afterHexMark?_hex {mark : Char} (h : mark = 'x' ∨ mark = 'X') (rest : List Char) :
    afterHexMark? ('0' :: mark :: rest) = some rest := by
  rcases h with rfl | rfl <;> rfl

theorem afterHexMark?_eq_none
    (h : ∀ mark rest, text = '0' :: mark :: rest → mark ≠ 'x' ∧ mark ≠ 'X') :
    afterHexMark? text = none := by
  unfold afterHexMark?
  split
  next rest => exact absurd rfl (h 'x' rest rfl).1
  next rest => exact absurd rfl (h 'X' rest rfl).2
  next => rfl

theorem splitRadix_hex {mark : Char} (h : mark = 'x' ∨ mark = 'X') :
    splitRadix ('0' :: mark :: digits) = (16, digits) := by
  simp [splitRadix, afterHexMark?_hex h]

theorem splitRadix_octal (h : c ≠ 'x' ∧ c ≠ 'X') :
    splitRadix ('0' :: c :: digits) = (8, c :: digits) := by
  have hmark : afterHexMark? ('0' :: c :: digits) = none := by
    apply afterHexMark?_eq_none
    rintro _ _ ⟨⟩
    exact h
  simp [splitRadix, hmark]

theorem splitRadix_decimal (h : text.head? ≠ some '0') : splitRadix text = (10, text) := by
  have hmark : afterHexMark? text = none := by
    apply afterHexMark?_eq_none
    rintro mark rest rfl
    exact absurd rfl h
  cases text with
  | nil => simp [splitRadix, hmark]
  | cons c digits =>
    have hc : c ≠ '0' := by simpa using h
    simp [splitRadix, hmark, hc]

theorem splitRadix_le (text : List Char) : (splitRadix text).1 ≤ 16 := by
  unfold splitRadix
  split
  · exact le_rfl
  · split <;> simp

theorem announces_iff : Announces text n ↔ Denotes (splitRadix text).1 (splitRadix text).2 n := by
  constructor
  · intro h
    cases h with
    | hex hmark hn => rwa [splitRadix_hex hmark]
    | zero => exact denotes_zero_iff.mpr rfl
    | decimal hhead hn => rwa [splitRadix_decimal hhead]
    | @octal digits _ hn =>
      -- A zero before an `x` would announce hexadecimal digits, but `x` is no octal digit.
      cases digits with
      | nil => exact absurd hn not_denotes_nil
      | cons c digits =>
        have hdigit := hn.digit?_ne_none (by decide)
        have hc : c ≠ 'x' ∧ c ≠ 'X' := by
          constructor <;> rintro rfl <;> exact hdigit (by decide)
        rwa [splitRadix_octal hc]
  · intro h
    by_cases hhead : text.head? = some '0'
    · obtain ⟨rest, rfl⟩ := List.head?_eq_some_iff.mp hhead
      cases rest with
      | nil =>
        cases denotes_zero_iff.mp h
        exact .zero
      | cons c digits =>
        by_cases hc : c = 'x' ∨ c = 'X'
        · rw [splitRadix_hex hc] at h
          exact .hex hc h
        · rw [splitRadix_octal (not_or.mp hc)] at h
          exact .octal h
    · rw [splitRadix_decimal hhead] at h
      exact .decimal hhead h

/-- A numeral begins with a digit. -/
theorem Announces.ne_sign (h : Announces (c :: text) n) : c ≠ '+' ∧ c ≠ '-' := by
  cases h with
  | hex | octal | zero => decide
  | decimal _ hn => exact not_or.mp fun hc => not_denotes_sign (by decide) hc hn

theorem splitSign_of_ne_sign (h : ∀ c rest, text = c :: rest → c ≠ '+' ∧ c ≠ '-') :
    splitSign text = (false, text) := by
  unfold splitSign
  split
  next => exact absurd rfl (h _ _ rfl).2
  next => exact absurd rfl (h _ _ rfl).1
  next => rfl

/-- The number `n` with the sign that was split off. -/
def withSign (negative : Bool) (n : ℕ) : ℤ := if negative then -n else n

theorem announcesInt_iff : AnnouncesInt text z ↔
    ∃ n, Announces (splitSign text).2 n ∧ withSign (splitSign text).1 n = z := by
  constructor
  · intro h
    cases h with
    | plus h | minus h => exact ⟨_, h, rfl⟩
    | @unsigned _ n h =>
      have hsign : splitSign text = (false, text) := by
        apply splitSign_of_ne_sign
        rintro c rest rfl
        exact h.ne_sign
      exact ⟨n, by rwa [hsign], by rw [hsign]; rfl⟩
  · rintro ⟨n, h, rfl⟩
    unfold splitSign at h ⊢
    split at h
    · exact .minus h
    · exact .plus h
    · exact .unsigned h

theorem map_eq_ok_iff {α β : Type} {f : α → β} {x : Except ConvError α} {b : β} :
    f <$> x = .ok b ↔ ∃ a, x = .ok a ∧ f a = b := by
  cases x with
  | error e => simp
  | ok a => simp

/-- The number as an integer of 64 bits. -/
def inRange (z : ℤ) : Except ConvError Int64 :=
  if -2 ^ 63 ≤ z ∧ z < 2 ^ 63 then .ok (Int64.ofInt z) else .error .outOfRange

theorem ofInt_eq_iff {m : Int64} (h : -2 ^ 63 ≤ z ∧ z < 2 ^ 63) :
    Int64.ofInt z = m ↔ z = m.toInt := by
  constructor
  · rintro rfl
    exact (Int64.toInt_ofInt_of_le h.1 h.2).symm
  · rintro rfl
    exact Int64.ofInt_toInt m

theorem inRange_eq_ok_iff {m : Int64} : inRange z = .ok m ↔ z = m.toInt := by
  unfold inRange
  by_cases hrange : -2 ^ 63 ≤ z ∧ z < 2 ^ 63
  · rw [if_pos hrange, Except.ok.injEq, ofInt_eq_iff hrange]
  · rw [if_neg hrange]
    have hle := m.le_toInt
    have hlt := m.toInt_lt
    simp only [reduceCtorEq, false_iff]
    omega

theorem inRange_withSign (h : 2 ^ 63 < n) (negative : Bool) :
    inRange (withSign negative n) = .error .outOfRange := by
  rw [inRange, if_neg]
  cases negative <;> simp [withSign] <;> omega

theorem detected_eq (text : List Char) : detected text =
    magnitude (splitRadix (splitSign text).2).1 (2 ^ 127 - 1) (splitRadix (splitSign text).2).2 >>=
      fun n => inRange (withSign (splitSign text).1 n) := by
  have hbound : Nat.pow 2 127 - 1 = 2 ^ 127 - 1 := rfl
  unfold detected
  simp only [hbound]
  cases magnitude (splitRadix (splitSign text).2).1 (2 ^ 127 - 1)
    (splitRadix (splitSign text).2).2 with
  | error e => rfl
  | ok n =>
    have hrange (z : ℤ) : (Int64.minValue.toInt ≤ z ∧ z ≤ Int64.maxValue.toInt) ↔
        (-2 ^ 63 ≤ z ∧ z < 2 ^ 63) := by
      rw [Int64.toInt_minValue, Int64.toInt_maxValue]
      omega
    simp only [hrange]
    rfl

/-- A numeral read with a bound beyond 64 bits is in range or not as a whole. -/
theorem detected_of_announcesInt (h : AnnouncesInt text z) : detected text = inRange z := by
  obtain ⟨n, hn, rfl⟩ := announcesInt_iff.mp h
  rw [detected_eq, magnitude_of_denotes (splitRadix_le _) (announces_iff.mp hn)]
  by_cases hle : n ≤ 2 ^ 127 - 1
  · rw [if_pos hle]
    rfl
  · rw [if_neg hle, inRange_withSign (by omega)]
    rfl

theorem announcesInt_of_detected {m : Int64} (h : detected text = .ok m) :
    AnnouncesInt text m.toInt := by
  rw [detected_eq] at h
  cases hmagnitude : magnitude (splitRadix (splitSign text).2).1 (2 ^ 127 - 1)
    (splitRadix (splitSign text).2).2 with
  | error e =>
    rw [hmagnitude] at h
    cases h
  | ok n =>
    rw [hmagnitude] at h
    have hdenotes := denotes_of_magnitude (splitRadix_le _) hmagnitude
    exact announcesInt_iff.mpr ⟨n, announces_iff.mpr hdenotes, inRange_eq_ok_iff.mp h⟩

theorem detected_eq_ok_iff {m : Int64} : detected text = .ok m ↔ AnnouncesInt text m.toInt := by
  constructor
  · exact announcesInt_of_detected
  · intro h
    rw [detected_of_announcesInt h, inRange_eq_ok_iff]

end Numeral

/-- The base-detecting conversion takes the numerals within 64 bits and no other text. -/
theorem Conversion.convert_detected (text : String) :
    (∀ m : Int64, detected.convert text = .ok (.int m) ↔ Numeral.AnnouncesInt text.toList m.toInt) ∧
    (∀ z, Numeral.AnnouncesInt text.toList z → z < -2 ^ 63 ∨ 2 ^ 63 ≤ z →
      detected.convert text = .error .outOfRange) ∧
    ((∀ z, ¬ Numeral.AnnouncesInt text.toList z) → ∃ e, detected.convert text = .error e) := by
  have hconvert : detected.convert text = Value.int <$> Numeral.detected text.toList := rfl
  refine ⟨?_, ?_, ?_⟩
  · intro m
    simp [hconvert, Numeral.map_eq_ok_iff, Numeral.detected_eq_ok_iff]
  · intro z hz hout
    rw [hconvert, Numeral.detected_of_announcesInt hz, Numeral.inRange, if_neg (by omega)]
    rfl
  · intro hnone
    cases hread : Numeral.detected text.toList with
    | error e => exact ⟨e, by rw [hconvert, hread]; rfl⟩
    | ok k => exact absurd (Numeral.detected_eq_ok_iff.mp hread) (hnone _)

end GroupedOptions
