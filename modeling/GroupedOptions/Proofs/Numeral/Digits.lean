import Mathlib
import GroupedOptions.Numeral

/-!
# Digits

A run of digits denotes a number in positional notation. Read against a bound it yields that number,
or passes the bound, however long it is; and nothing but a run of digits yields a number.
-/
namespace GroupedOptions.Numeral

/-- `c` stands for the digit `d` of the radix; a letter does so in either case. -/
def SpellsDigit (radix : ℕ) (c : Char) (d : ℕ) : Prop :=
  d < radix ∧ (c = Nat.digitChar d ∨ c = (Nat.digitChar d).toUpper)

/-- One or more digits of the radix, which denote `n`. -/
def Denotes (radix : ℕ) (digits : List Char) (n : ℕ) : Prop :=
  digits ≠ [] ∧ ∃ ds, List.Forall₂ (SpellsDigit radix) digits ds ∧ Nat.ofDigits radix ds.reverse = n

variable {radix bound acc : ℕ} {c : Char} {d n : ℕ} {digits : List Char} {ds : List ℕ}

theorem digit?_digitChar : ∀ d < 16,
    digit? 16 (Nat.digitChar d) = some d ∧ digit? 16 (Nat.digitChar d).toUpper = some d := by
  decide

theorem toNat_lt_of_digit? (h : digit? radix c = some d) : c.toNat < 128 := by
  obtain ⟨hvalue, -⟩ := Option.filter_eq_some_iff.mp h
  simp only [Char.le_def, UInt32.le_iff_toNat_le] at hvalue
  have hc : c.toNat = c.val.toNat := rfl
  grind

theorem eq_digitChar_of_digit? : ∀ n < 128, ∀ d < 16, digit? 16 (Char.ofNat n) = some d →
    Char.ofNat n = Nat.digitChar d ∨ Char.ofNat n = (Nat.digitChar d).toUpper := by
  decide +kernel

/-- A digit of a smaller radix is a digit of 16 below it. -/
theorem digit?_eq_some_iff_of_le (h : radix ≤ 16) :
    digit? radix c = some d ↔ digit? 16 c = some d ∧ d < radix := by
  simp only [digit?, Option.filter_eq_some_iff, decide_eq_true_eq, and_assoc]
  exact and_congr_right fun _ => ⟨fun hd => ⟨by omega, hd⟩, And.right⟩

theorem digit?_eq_some_iff (h : radix ≤ 16) : digit? radix c = some d ↔ SpellsDigit radix c d := by
  rw [digit?_eq_some_iff_of_le h, SpellsDigit]
  constructor
  · rintro ⟨hd, hlt⟩
    have hc := eq_digitChar_of_digit? c.toNat (toNat_lt_of_digit? hd) d (by omega)
    rw [Char.ofNat_toNat] at hc
    exact ⟨hlt, hc hd⟩
  · rintro ⟨hlt, hc⟩
    have hd := digit?_digitChar d (by omega)
    rcases hc with rfl | rfl
    · exact ⟨hd.1, hlt⟩
    · exact ⟨hd.2, hlt⟩

/-- The number that digits continue to, read after the number `acc`. -/
def continued (radix acc : ℕ) (ds : List ℕ) : ℕ :=
  Nat.ofDigits radix ds.reverse + radix ^ ds.length * acc

theorem continued_cons (d : ℕ) (ds : List ℕ) :
    continued radix acc (d :: ds) = continued radix (acc * radix + d) ds := by
  rw [continued, continued, Nat.ofDigits_reverse_cons, List.length_cons]
  ring

/-- Digits make a number no smaller, so a bound that is passed stays passed. -/
theorem le_continued (h : 0 < radix) (acc : ℕ) (ds : List ℕ) : acc ≤ continued radix acc ds :=
  calc acc
    _ ≤ radix ^ ds.length * acc := Nat.le_mul_of_pos_left _ (Nat.pow_pos h)
    _ ≤ continued radix acc ds := Nat.le_add_left ..

theorem accumulate_of_forall₂ (h : radix ≤ 16)
    (hds : List.Forall₂ (SpellsDigit radix) digits ds) (hacc : acc ≤ bound) :
    accumulate radix bound acc digits =
      if continued radix acc ds ≤ bound then .ok (continued radix acc ds)
      else .error .outOfRange := by
  induction hds generalizing acc with
  | nil => simp [accumulate, continued, hacc]
  | @cons c d digits ds hc hds ih =>
    have hdigit := (digit?_eq_some_iff h).mpr hc
    have hpos : 0 < radix := Nat.zero_lt_of_lt hc.1
    simp only [accumulate, hdigit, continued_cons]
    split
    next hle => exact ih hle
    next hlt =>
      have hmore := le_continued hpos (acc * radix + d) ds
      rw [if_neg (by omega)]

/-- A number is read off digits alone. -/
theorem exists_forall₂_of_accumulate (h : radix ≤ 16)
    (hn : accumulate radix bound acc digits = .ok n) :
    ∃ ds, List.Forall₂ (SpellsDigit radix) digits ds ∧ continued radix acc ds = n := by
  induction digits generalizing acc with
  | nil =>
    cases hn
    exact ⟨[], .nil, by simp [continued]⟩
  | cons c digits ih =>
    rw [accumulate] at hn
    cases hdigit : digit? radix c with
    | none => simp [hdigit] at hn
    | some d =>
      simp only [hdigit] at hn
      split at hn
      · obtain ⟨ds, hds, hnumber⟩ := ih hn
        have hc := (digit?_eq_some_iff h).mp hdigit
        exact ⟨d :: ds, .cons hc hds, by rw [continued_cons, hnumber]⟩
      · cases hn

theorem magnitude_of_denotes (h : radix ≤ 16) (hn : Denotes radix digits n) (bound : ℕ) :
    magnitude radix bound digits = if n ≤ bound then .ok n else .error .outOfRange := by
  obtain ⟨hne, ds, hds, rfl⟩ := hn
  rw [magnitude, if_neg (by simpa using hne), accumulate_of_forall₂ h hds (Nat.zero_le bound)]
  simp [continued]

theorem denotes_of_magnitude (h : radix ≤ 16) (hn : magnitude radix bound digits = .ok n) :
    Denotes radix digits n := by
  rw [magnitude] at hn
  split at hn
  next => cases hn
  next hne =>
    obtain ⟨ds, hds, rfl⟩ := exists_forall₂_of_accumulate h hn
    exact ⟨by simpa using hne, ds, hds, by simp [continued]⟩

/-- A number within the bound is what the digits denote. -/
theorem magnitude_eq_ok_iff (h : radix ≤ 16) :
    magnitude radix bound digits = .ok n ↔ Denotes radix digits n ∧ n ≤ bound := by
  constructor
  · intro hn
    have hdenotes := denotes_of_magnitude h hn
    refine ⟨hdenotes, ?_⟩
    rw [magnitude_of_denotes h hdenotes] at hn
    by_contra hlt
    rw [if_neg hlt] at hn
    cases hn
  · rintro ⟨hdenotes, hle⟩
    rw [magnitude_of_denotes h hdenotes, if_pos hle]

theorem not_denotes_nil : ¬ Denotes radix [] n := fun h => h.1 rfl

end GroupedOptions.Numeral
