import GroupedOptions.Proofs.Numeral.Spelling

/-!
# Values and their text

The text of an integer is a numeral for it in radix ten, without a sign unless it is negative and
without leading zeros, so no conversion mistakes its radix. The main statement is that a value comes
back from its text under each conversion for values of its kind.
-/
namespace GroupedOptions

namespace Numeral

variable {radix n d : ℕ} {c : Char} {digits : List Char}

theorem spellsDigit_digitChar (h : d < radix) : SpellsDigit radix (Nat.digitChar d) d :=
  ⟨h, .inl rfl⟩

theorem denotes_singleton (hc : SpellsDigit radix c d) : Denotes radix [c] d :=
  ⟨by simp, [d], .cons hc .nil, by simp⟩

theorem Denotes.concat (hn : Denotes radix digits n) (hc : SpellsDigit radix c d) :
    Denotes radix (digits ++ [c]) (d + radix * n) := by
  obtain ⟨_, ds, hds, rfl⟩ := hn
  refine ⟨by simp, ds ++ [d], List.rel_append hds (.cons hc .nil), ?_⟩
  rw [List.reverse_append, List.reverse_singleton, List.singleton_append, Nat.ofDigits_cons]

/-- The digits denote their number, by induction from the last one. -/
theorem denotes_toDigits (h : 1 < radix) (n : ℕ) : Denotes radix (Nat.toDigits radix n) n := by
  induction n using Nat.strong_induction_on with
  | _ n ih =>
    rcases lt_or_ge n radix with hlt | hle
    · rw [Nat.toDigits_of_lt_base hlt]
      exact denotes_singleton (spellsDigit_digitChar hlt)
    · have hless : n / radix < n := Nat.div_lt_self (by omega) h
      have hdigit := spellsDigit_digitChar (Nat.mod_lt n (show 0 < radix by omega))
      have hn := (ih _ hless).concat hdigit
      rwa [Nat.mod_add_div, ← Nat.toDigits_of_base_le h hle] at hn

theorem head?_toDigits_ne_zero (h : 1 < radix) (hn : n ≠ 0) :
    (Nat.toDigits radix n).head? ≠ some '0' := by
  induction n using Nat.strong_induction_on with
  | _ n ih =>
    rcases lt_or_ge n radix with hlt | hle
    · rw [Nat.toDigits_of_lt_base hlt]
      simpa [Nat.digitChar_eq_zero] using hn
    · have hless : n / radix < n := Nat.div_lt_self (by omega) h
      have hpos : n / radix ≠ 0 := (Nat.div_pos hle (by omega)).ne'
      rw [Nat.toDigits_of_base_le h hle, List.head?_append_of_ne_nil _ Nat.toDigits_ne_nil]
      exact ih _ hless hpos

/-- Only the digits of zero begin with a zero, so they announce no other radix. -/
theorem announces_toDigits (n : ℕ) : Announces (Nat.toDigits 10 n) n := by
  by_cases hn : n = 0
  · subst hn
    exact .zero
  · exact .decimal (head?_toDigits_ne_zero (by decide) hn) (denotes_toDigits (by decide) n)

theorem toList_toString_natCast (n : ℕ) : (toString (n : ℤ)).toList = Nat.toDigits 10 n := by
  simp [Int.toString_eq_repr, Int.repr]

theorem toList_toString_negSucc (n : ℕ) :
    (toString (Int.negSucc n)).toList = '-' :: Nat.toDigits 10 (n + 1) := by
  simp [Int.toString_eq_repr, Int.repr]

theorem announcesInt_toString (z : ℤ) : AnnouncesInt (toString z).toList z := by
  cases z with
  | ofNat n =>
    rw [Int.ofNat_eq_natCast, toList_toString_natCast]
    exact .unsigned (announces_toDigits n)
  | negSucc n =>
    rw [toList_toString_negSucc]
    exact .minus (announces_toDigits (n + 1))

end Numeral

namespace Conversion

open Numeral

theorem spells_signed_toString (z : ℤ) : signed.Spells (toString z).toList z := by
  cases z with
  | ofNat n =>
    rw [Int.ofNat_eq_natCast, toList_toString_natCast]
    exact .signed (.digits (denotes_toDigits (by decide) n))
  | negSucc n =>
    rw [toList_toString_negSucc]
    exact .minus (denotes_toDigits (by decide) (n + 1))

theorem spells_unsigned_toString (n : ℕ) : unsigned.Spells (toString n).toList n := by
  rw [Nat.toString_eq_repr, Nat.toList_repr]
  exact .unsigned (.digits (denotes_toDigits (by decide) n))

theorem spells_detected_toString (n : ℕ) : detected.Spells (toString n).toList n := by
  rw [Nat.toString_eq_repr, Nat.toList_repr]
  exact .detected (.unsigned (announces_toDigits n))

theorem ofNumber_toInt (n : Int64) :
    signed.ofNumber n.toInt = .ok (.int n) ∧ detected.ofNumber n.toInt = .ok (.int n) := by
  have hrange : -2 ^ 63 ≤ n.toInt ∧ n.toInt < 2 ^ 63 := ⟨n.le_toInt, n.toInt_lt⟩
  have hvalue : Value.int (.ofInt n.toInt) = .int n := by rw [Int64.ofInt_toInt]
  exact ⟨ofNumber_eq_ok_iff.mpr ⟨hrange, hvalue⟩, ofNumber_eq_ok_iff.mpr ⟨hrange, hvalue⟩⟩

theorem ofNumber_toNat (u : UInt64) : unsigned.ofNumber u.toNat = .ok (.uint u) := by
  have hrange : (0 : ℤ) ≤ u.toNat ∧ (u.toNat : ℤ) < 2 ^ 64 := by
    have hlt := u.toNat_lt
    omega
  have hvalue : unsigned.valueOf u.toNat = .uint (.ofNat u.toNat) := rfl
  rw [UInt64.ofNat_toNat] at hvalue
  exact ofNumber_eq_ok_iff.mpr ⟨hrange, hvalue⟩

/-- A number without a sign may be beyond the signed range. -/
theorem ofNumber_natCast (n : ℕ) : detected.ofNumber n =
    if n ≤ 2 ^ 63 - 1 then .ok (.int (.ofNat n)) else .error .outOfRange := by
  have hrange : detected.InRange n ↔ n ≤ 2 ^ 63 - 1 := by
    simp only [InRange]
    omega
  have hvalue : detected.valueOf n = .int (.ofInt n) := rfl
  rw [Int64.ofInt_eq_ofNat] at hvalue
  simp only [ofNumber, hrange, hvalue]

/-- A value comes back from its text. The conversion that goes by the announced radix gives an
unsigned value back as a signed one, if there is one for its number. -/
theorem convert_display :
    (∀ n : Int64, signed.convert (Value.int n).display = .ok (.int n) ∧
        detected.convert (Value.int n).display = .ok (.int n)) ∧
      (∀ u : UInt64, unsigned.convert (Value.uint u).display = .ok (.uint u) ∧
        detected.convert (Value.uint u).display =
          if u.toNat ≤ 2 ^ 63 - 1 then .ok (.int (.ofNat u.toNat)) else .error .outOfRange) ∧
      (∀ c : Char, char.convert (Value.char c).display = .ok (.char c)) ∧
      ∀ s : String, str.convert (Value.str s).display = .ok (.str s) := by
  refine ⟨fun n => ⟨?_, ?_⟩, fun u => ⟨?_, ?_⟩, fun c => ?_, fun s => rfl⟩
  · rw [Value.display, convert_of_spells rfl (spells_signed_toString n.toInt)]
    exact (ofNumber_toInt n).1
  · rw [Value.display, convert_of_spells rfl (.detected (announcesInt_toString n.toInt))]
    exact (ofNumber_toInt n).2
  · rw [Value.display, convert_of_spells rfl (spells_unsigned_toString u.toNat)]
    exact ofNumber_toNat u
  · rw [Value.display, convert_of_spells rfl (spells_detected_toString u.toNat)]
    exact ofNumber_natCast u.toNat
  · simp [Value.display, convert]

end Conversion

end GroupedOptions
