import GroupedOptions.Proofs.Numeral.Agreement

/-!
# Numerals of the integer conversions

Each integer conversion has its numerals: digits of its radix after the sign and the mark that it
accepts. All of them cut a text the same way, read the digits against a bound and hold the number
against their range. The main statement is that a numeral becomes a value if its number is in range,
and is out of range otherwise, however long it is.
-/
namespace GroupedOptions

namespace Numeral

/-- Digits of the radix after an optional plus sign. -/
inductive DenotesPlus (radix : ℕ) : List Char → ℕ → Prop
  | digits {digits n} : Denotes radix digits n → DenotesPlus radix digits n
  | plus {digits n} : Denotes radix digits n → DenotesPlus radix ('+' :: digits) n

end Numeral

namespace Conversion

open Numeral

/-- The numerals of an integer conversion, with the numbers that they denote. -/
inductive Spells : Conversion → List Char → ℤ → Prop
  | signed {text n} : DenotesPlus 10 text n → Spells .signed text n
  | minus {digits n} : Denotes 10 digits n → Spells .signed ('-' :: digits) (-n)
  | unsigned {text n} : DenotesPlus 10 text n → Spells .unsigned text n
  | octal {text n} : DenotesPlus 8 text n → Spells .octal text n
  | hex {text n} : DenotesPlus 16 text n → Spells .hex text n
  | marked {mark text n} : mark = 'x' ∨ mark = 'X' → DenotesPlus 16 text n →
      Spells .hex ('0' :: mark :: text) n
  | detected {text z} : AnnouncesInt text z → Spells .detected text z

def isInteger : Conversion → Bool
  | signed | unsigned | detected | hex | octal => true
  | float | char | str => false

/-- The integers of 64 bits that the conversion yields. -/
def InRange : Conversion → ℤ → Prop
  | signed, z | detected, z => -2 ^ 63 ≤ z ∧ z < 2 ^ 63
  | _, z => 0 ≤ z ∧ z < 2 ^ 64

instance (c : Conversion) (z : ℤ) : Decidable (c.InRange z) := by
  cases c <;> exact inferInstanceAs (Decidable (_ ∧ _))

/-- The numbers up to which digits are read, before the range is looked at. -/
def Reads : Conversion → ℤ → Prop
  | detected, z => -2 ^ 127 < z ∧ z < 2 ^ 127
  | c, z => c.InRange z

def valueOf : Conversion → ℤ → Value
  | signed, z | detected, z => .int (.ofInt z)
  | _, z => .uint (.ofNat z.toNat)

/-- A number as a value if it is in range. -/
def ofNumber (c : Conversion) (z : ℤ) : Except ConvError Value :=
  if c.InRange z then .ok (c.valueOf z) else .error .outOfRange

end Conversion

namespace Numeral

variable {text digits : List Char} {radix n : ℕ}

def afterPlus : List Char → List Char
  | '+' :: digits => digits
  | text => text

/-- A text cut after sign and mark, with what they say of the digits. -/
structure Split where
  negative : Bool
  radix : ℕ
  digits : List Char

theorem afterPlus_of_head?_ne (h : text.head? ≠ some '+') : afterPlus text = text := by
  unfold afterPlus
  split
  next => exact absurd rfl h
  next => rfl

theorem Denotes.not_mem {c : Char} (h : radix ≤ 16) (hn : Denotes radix digits n)
    (hc : digit? radix c = none) : c ∉ digits := by
  obtain ⟨_, ds, hds, _⟩ := hn
  have hdigits :
      List.Forall₂ (fun c d => digit? radix c ≠ none ∧ SpellsDigit radix c d) digits ds := by
    refine hds.imp fun c d hspells => ⟨?_, hspells⟩
    simp [(digit?_eq_some_iff h).mpr hspells]
  exact fun hmem => ((List.forall₂_and_left _ _).mp hdigits).1 c hmem hc

theorem denotesPlus_iff {radix : ℕ} (h : radix ≤ 16) :
    DenotesPlus radix text n ↔ Denotes radix (afterPlus text) n := by
  constructor
  · intro hn
    cases hn with
    | plus hn => exact hn
    | digits hn =>
      rw [afterPlus_of_head?_ne]
      · exact hn
      · intro hplus
        obtain ⟨digits, rfl⟩ := List.head?_eq_some_iff.mp hplus
        exact not_denotes_sign h (.inl rfl) hn
  · intro hn
    unfold afterPlus at hn
    split at hn
    · exact .plus hn
    · exact .digits hn

theorem not_denotesPlus_marked {mark : Char} (hmark : mark = 'x' ∨ mark = 'X')
    (digits : List Char) : ¬ DenotesPlus 16 ('0' :: mark :: digits) n := by
  have hnone : digit? 16 mark = none := by rcases hmark with rfl | rfl <;> decide
  have hplus : afterPlus ('0' :: mark :: digits) = '0' :: mark :: digits := rfl
  rw [denotesPlus_iff le_rfl, hplus]
  intro hn
  exact hn.not_mem le_rfl hnone (by simp)

end Numeral

namespace Conversion

open Numeral

variable {c : Conversion} {text : List Char} {n : ℕ} {z : ℤ}

/-- Where a conversion takes its digits from. -/
def split (c : Conversion) (text : List Char) : Split :=
  match c with
  | signed => ⟨(splitSign text).1, 10, (splitSign text).2⟩
  | detected =>
      ⟨(splitSign text).1, (splitRadix (splitSign text).2).1, (splitRadix (splitSign text).2).2⟩
  | hex => ⟨false, 16, afterPlus ((afterHexMark? text).getD text)⟩
  | octal => ⟨false, 8, afterPlus text⟩
  | _ => ⟨false, 10, afterPlus text⟩

/-- The bound that digits are read against. -/
def bound (c : Conversion) (negative : Bool) : ℕ :=
  match c with
  | signed => if negative then 2 ^ 63 else 2 ^ 63 - 1
  | detected => 2 ^ 127 - 1
  | _ => 2 ^ 64 - 1

/-- The number of the digits, if they are digits and the number is within the bound. -/
def read (c : Conversion) (text : List Char) : Except ConvError ℕ :=
  magnitude (c.split text).radix (c.bound (c.split text).negative) (c.split text).digits

theorem radix_split_le (c : Conversion) (text : List Char) : (c.split text).radix ≤ 16 := by
  cases c with
  | detected => exact splitRadix_le _
  | _ => simp [split]

theorem spells_signed_iff : signed.Spells text z ↔
    ∃ n, Denotes 10 (splitSign text).2 n ∧ withSign (splitSign text).1 n = z := by
  constructor
  · intro h
    cases h with
    | minus hn => exact ⟨_, hn, rfl⟩
    | @signed _ n hn =>
      cases hn with
      | plus hn => exact ⟨n, hn, rfl⟩
      | digits hn =>
        have hsign : splitSign text = (false, text) := by
          apply splitSign_of_ne_sign
          rintro c rest rfl
          exact not_or.mp fun hc => not_denotes_sign (by decide) hc hn
        exact ⟨n, by rwa [hsign], by rw [hsign]; rfl⟩
  · rintro ⟨n, hn, rfl⟩
    unfold splitSign at hn ⊢
    split at hn
    · exact .minus hn
    · exact .signed (.plus hn)
    · exact .signed (.digits hn)

theorem spells_hex_iff : hex.Spells text z ↔
    ∃ n, DenotesPlus 16 ((afterHexMark? text).getD text) n ∧ (n : ℤ) = z := by
  constructor
  · intro h
    cases h with
    | marked hmark hn => exact ⟨_, by simpa [afterHexMark?_hex hmark] using hn, rfl⟩
    | hex hn =>
      have hnone : afterHexMark? text = none := by
        apply afterHexMark?_eq_none
        rintro mark rest rfl
        exact not_or.mp fun hmark => not_denotesPlus_marked hmark rest hn
      exact ⟨_, by simpa [hnone] using hn, rfl⟩
  · rintro ⟨n, hn, rfl⟩
    unfold afterHexMark? at hn
    split at hn
    · exact .marked (.inl rfl) hn
    · exact .marked (.inr rfl) hn
    · exact .hex hn

/-- The numerals of a conversion are the texts whose digits are digits. -/
theorem spells_iff (hc : c.isInteger = true) : c.Spells text z ↔
    ∃ n, Denotes (c.split text).radix (c.split text).digits n ∧
      withSign (c.split text).negative n = z := by
  cases c with
  | signed => exact spells_signed_iff
  | detected =>
    have hdetected : detected.Spells text z ↔ AnnouncesInt text z := by
      constructor
      · rintro ⟨⟩
        assumption
      · exact .detected
    rw [hdetected, announcesInt_iff]
    simp only [announces_iff]
    rfl
  | hex =>
    rw [spells_hex_iff]
    simp only [denotesPlus_iff le_rfl]
    rfl
  | unsigned | octal =>
    constructor
    · rintro ⟨⟩
      rename_i n hn
      exact ⟨n, (denotesPlus_iff (radix_split_le _ text)).mp hn, rfl⟩
    · rintro ⟨n, hn, rfl⟩
      constructor
      exact (denotesPlus_iff (radix_split_le _ text)).mpr hn
  | float | char | str => cases hc

theorem reads_withSign_iff (hc : c.isInteger = true) :
    c.Reads (withSign (c.split text).negative n) ↔ n ≤ c.bound (c.split text).negative := by
  cases c with
  | signed | detected =>
    cases (split _ text).negative <;> simp only [Reads, InRange, bound, withSign] <;> simp <;> omega
  | unsigned | octal | hex =>
    simp only [split, Reads, InRange, bound, withSign, Bool.false_eq_true, if_false]
    omega
  | float | char | str => cases hc

theorem InRange.reads (h : c.InRange z) : c.Reads z := by
  cases c with
  | detected => simp only [InRange, Reads] at h ⊢; omega
  | _ => exact h

/-- Where digits are read within the range, the number only has to be made a value. -/
theorem map_magnitude_eq_bind {radix bound : ℕ} {negative : Bool} {digits : List Char}
    (h : radix ≤ 16) {f : ℕ → Value}
    (hf : ∀ n ≤ bound, c.ofNumber (withSign negative n) = .ok (f n)) :
    f <$> magnitude radix bound digits =
      magnitude radix bound digits >>= fun n => c.ofNumber (withSign negative n) := by
  cases hread : magnitude radix bound digits with
  | error e => rfl
  | ok n =>
    have hle := ((magnitude_eq_ok_iff h).mp hread).2
    exact (hf n hle).symm

theorem ofNumber_of_inRange (h : c.InRange z) : c.ofNumber z = .ok (c.valueOf z) := if_pos h

theorem uint_unsigned_eq {radix : ℕ} (h : radix ≤ 16) (hc : c = unsigned ∨ c = octal ∨ c = hex)
    (text : List Char) : Value.uint <$> Numeral.unsigned radix text =
      magnitude radix (2 ^ 64 - 1) (afterPlus text) >>= fun n => c.ofNumber (withSign false n) := by
  have hread : Numeral.unsigned radix text =
      UInt64.ofNat <$> magnitude radix (2 ^ 64 - 1) (afterPlus text) := by
    by_cases hplus : text.head? = some '+'
    · obtain ⟨digits, rfl⟩ := List.head?_eq_some_iff.mp hplus
      rfl
    · rw [unsigned_of_head?_ne hplus, afterPlus_of_head?_ne hplus]
      rfl
  rw [hread, ← comp_map]
  refine map_magnitude_eq_bind h fun n hle => ?_
  have hrange : (0 : ℤ) ≤ n ∧ (n : ℤ) < 2 ^ 64 := by omega
  rcases hc with rfl | rfl | rfl <;> exact ofNumber_of_inRange hrange

theorem int_signed_eq (text : List Char) : Value.int <$> Numeral.signed 10 text =
    magnitude 10 (signed.bound (splitSign text).1) (splitSign text).2 >>=
      fun n => signed.ofNumber (withSign (splitSign text).1 n) := by
  have hmin : Int64.minValue.toInt.natAbs = 2 ^ 63 := by decide
  have hmax : Int64.maxValue.toInt.toNat = 2 ^ 63 - 1 := by decide
  have hrange (negative : Bool) (n : ℕ) (hle : n ≤ signed.bound negative) :
      signed.ofNumber (withSign negative n) =
        .ok (.int (Int64.ofInt (withSign negative n))) := by
    apply ofNumber_of_inRange
    cases negative <;> simp [bound, InRange, withSign] at hle ⊢ <;> omega
  unfold Numeral.signed splitSign
  rw [hmin, hmax]
  split <;> rw [← comp_map]
  next => exact map_magnitude_eq_bind (by decide) (hrange true)
  next => exact map_magnitude_eq_bind (by decide) (hrange false)
  next => exact map_magnitude_eq_bind (by decide) (hrange false)

/-- Every integer conversion reads the digits of its text and holds the number against its range. -/
theorem convert_eq (hc : c.isInteger = true) (text : String) :
    c.convert text = c.read text.toList >>=
      fun n => c.ofNumber (withSign (c.split text.toList).negative n) := by
  cases c with
  | signed => exact int_signed_eq text.toList
  | unsigned => exact uint_unsigned_eq (by decide) (.inl rfl) text.toList
  | octal => exact uint_unsigned_eq (by decide) (.inr (.inl rfl)) text.toList
  | hex => exact uint_unsigned_eq (by decide) (.inr (.inr rfl)) _
  | detected =>
    have hconvert : detected.convert text = Value.int <$> Numeral.detected text.toList := rfl
    have hnumber (z : ℤ) : Value.int <$> inRange z = detected.ofNumber z := by
      unfold inRange
      split
      next h => exact (if_pos h).symm
      next h => exact (if_neg h).symm
    rw [hconvert, detected_eq, map_bind]
    simp only [hnumber]
    rfl
  | float | char | str => cases hc

theorem ofNumber_eq_ok_iff {v : Value} :
    c.ofNumber z = .ok v ↔ c.InRange z ∧ c.valueOf z = v := by
  unfold ofNumber
  split <;> simp_all

theorem ofNumber_eq_error_iff {e : ConvError} :
    c.ofNumber z = .error e ↔ ¬ c.InRange z ∧ e = .outOfRange := by
  unfold ofNumber
  split <;> simp_all [eq_comm]

/-- A numeral becomes a value if its number is in range, and nothing but its length keeps its digits
from being read to the end. -/
theorem convert_of_spells (hc : c.isInteger = true) {text : String}
    (h : c.Spells text.toList z) : c.convert text = c.ofNumber z := by
  obtain ⟨n, hn, rfl⟩ := (spells_iff hc).mp h
  rw [convert_eq hc, read, magnitude_of_denotes (radix_split_le c _) hn]
  split
  next => rfl
  next hlt =>
    have hreads := mt (reads_withSign_iff hc).mp hlt
    exact (ofNumber_eq_error_iff.mpr ⟨fun hrange => hreads hrange.reads, rfl⟩).symm

/-- Any other text has no more to it than what reading its digits comes to. -/
theorem convert_cases (hc : c.isInteger = true) (text : String) :
    (∃ z, c.Spells text.toList z ∧ c.convert text = c.ofNumber z) ∨
      ∃ e, c.read text.toList = .error e ∧ c.convert text = .error e := by
  rw [convert_eq hc]
  cases hread : c.read text.toList with
  | error e => exact .inr ⟨e, rfl, rfl⟩
  | ok n =>
    have hn := denotes_of_magnitude (radix_split_le c _) hread
    exact .inl ⟨_, (spells_iff hc).mpr ⟨n, hn, rfl⟩, rfl⟩

end Conversion

end GroupedOptions
