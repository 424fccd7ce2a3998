import GroupedOptions.Proofs.Numeral.Spelling

/-!
# Numbers out of range

Digits are read from the left against a bound. A text whose first digits denote a number beyond it
is out of range however it goes on, and a text that is no numeral is malformed otherwise. The main
statement is for all integer conversions; of them, the one that goes by the announced radix reads
further than its range.
-/
namespace GroupedOptions

namespace Numeral

variable {part rest text digits : List Char} {radix bound acc n : ℕ}

theorem accumulate_ne_mismatch : accumulate radix bound acc digits ≠ .error .mismatch := by
  induction digits generalizing acc with
  | nil => simp [accumulate]
  | cons c digits ih =>
    rw [accumulate]
    cases digit? radix c with
    | none => simp
    | some d =>
      simp only
      split
      · exact ih
      · simp

theorem accumulate_eq_outOfRange_iff (h : radix ≤ 16) (hacc : acc ≤ bound) :
    accumulate radix bound acc digits = .error .outOfRange ↔
      ∃ run ds, run <+: digits ∧ List.Forall₂ (SpellsDigit radix) run ds ∧
        bound < continued radix acc ds := by
  constructor
  · intro herror
    induction digits generalizing acc with
    | nil => simp [accumulate] at herror
    | cons c digits ih =>
      rw [accumulate] at herror
      cases hdigit : digit? radix c with
      | none => simp [hdigit] at herror
      | some d =>
        have hc := (digit?_eq_some_iff h).mp hdigit
        simp only [hdigit] at herror
        split at herror
        next hle =>
          -- The digits so far fit, and the bound is passed later.
          obtain ⟨run, ds, hrun, hds, hlt⟩ := ih hle herror
          refine ⟨c :: run, d :: ds, List.prefix_cons_inj c |>.mpr hrun, .cons hc hds, ?_⟩
          rwa [continued_cons]
        next hlt =>
          refine ⟨[c], [d], by simp, .cons hc .nil, ?_⟩
          rw [continued_cons]
          simpa [continued] using hlt
  · rintro ⟨run, ds, ⟨rest, rfl⟩, hds, hlt⟩
    induction hds generalizing acc with
    | nil => simp [continued] at hlt; omega
    | @cons c d run ds hc hds ih =>
      have hdigit := (digit?_eq_some_iff h).mpr hc
      rw [continued_cons] at hlt
      simp only [List.cons_append, accumulate, hdigit]
      split
      next hle => exact ih hle hlt
      next => rfl

/-- Whatever follows them, the first digits decide that the bound is passed. -/
theorem magnitude_eq_outOfRange_iff (h : radix ≤ 16) :
    magnitude radix bound digits = .error .outOfRange ↔
      ∃ run n, run <+: digits ∧ Denotes radix run n ∧ bound < n := by
  have hread : magnitude radix bound digits = .error .outOfRange ↔
      accumulate radix bound 0 digits = .error .outOfRange := by
    unfold magnitude
    split
    next hnil => simp [List.isEmpty_iff.mp hnil, accumulate]
    next => rfl
  rw [hread, accumulate_eq_outOfRange_iff h (Nat.zero_le bound)]
  constructor
  · rintro ⟨run, ds, hrun, hds, hlt⟩
    have hne : run ≠ [] := by
      rintro rfl
      cases hds
      simp [continued] at hlt
    exact ⟨run, _, hrun, ⟨hne, ds, hds, rfl⟩, by simpa [continued] using hlt⟩
  · rintro ⟨run, n, hrun, ⟨_, ds, hds, rfl⟩, hlt⟩
    exact ⟨run, ds, hrun, hds, by simpa [continued] using hlt⟩

theorem magnitude_ne_mismatch : magnitude radix bound digits ≠ .error .mismatch := by
  unfold magnitude
  split
  · simp
  · exact accumulate_ne_mismatch

theorem afterPlus_append (h : part ≠ []) (rest : List Char) :
    afterPlus (part ++ rest) = afterPlus part ++ rest := by
  obtain ⟨c, part, rfl⟩ := List.exists_cons_of_ne_nil h
  by_cases hc : c = '+'
  · subst hc
    rfl
  · rw [afterPlus_of_head?_ne (by simpa using hc), afterPlus_of_head?_ne (by simpa using hc)]

theorem afterPlus_suffix (text : List Char) : afterPlus text <:+ text := by
  unfold afterPlus
  split
  next => exact List.suffix_cons _ _
  next => exact List.suffix_rfl

theorem splitSign_append (h : part ≠ []) (rest : List Char) :
    splitSign (part ++ rest) = ((splitSign part).1, (splitSign part).2 ++ rest) := by
  obtain ⟨c, part, rfl⟩ := List.exists_cons_of_ne_nil h
  by_cases hminus : c = '-'
  · subst hminus
    rfl
  by_cases hplus : c = '+'
  · subst hplus
    rfl
  · have hsign (text : List Char) : splitSign (c :: text) = (false, c :: text) := by
      apply splitSign_of_ne_sign
      rintro _ _ ⟨⟩
      exact ⟨hplus, hminus⟩
    rw [List.cons_append, hsign, hsign]
    rfl

theorem length_le_splitSign (text : List Char) :
    text.length ≤ (splitSign text).2.length + 1 := by
  unfold splitSign
  split <;> simp

theorem splitSign_suffix (text : List Char) : (splitSign text).2 <:+ text := by
  unfold splitSign
  split
  next => exact List.suffix_cons _ _
  next => exact List.suffix_cons _ _
  next => exact List.suffix_rfl

/-- Two characters settle whether there is a mark. -/
theorem afterHexMark?_append (h : 2 ≤ part.length) (rest : List Char) :
    afterHexMark? (part ++ rest) = (afterHexMark? part).map (· ++ rest) := by
  match part, h with
  | c :: mark :: part, _ =>
    by_cases hmark : c = '0' ∧ (mark = 'x' ∨ mark = 'X')
    · obtain ⟨rfl, hmark⟩ := hmark
      simp [afterHexMark?_hex hmark]
    · have hnone (text : List Char) : afterHexMark? (c :: mark :: text) = none := by
        apply afterHexMark?_eq_none
        rintro _ _ ⟨⟩
        simpa using hmark
      rw [List.cons_append, List.cons_append, hnone, hnone]
      rfl

theorem length_le_afterHexMark? (text : List Char) :
    text.length ≤ ((afterHexMark? text).getD text).length + 2 := by
  unfold afterHexMark?
  split <;> simp

theorem splitRadix_append (h : 2 ≤ part.length) (rest : List Char) :
    splitRadix (part ++ rest) = ((splitRadix part).1, (splitRadix part).2 ++ rest) := by
  unfold splitRadix
  rw [afterHexMark?_append h]
  cases afterHexMark? part with
  | some digits => rfl
  | none =>
    match part, h with
    | c :: d :: part, _ =>
      by_cases hc : c = '0'
      · subst hc
        rfl
      · simp [hc]

theorem afterHexMark?_suffix (text : List Char) : (afterHexMark? text).getD text <:+ text := by
  unfold afterHexMark?
  split
  next rest => exact ⟨['0', 'x'], rfl⟩
  next rest => exact ⟨['0', 'X'], rfl⟩
  next => exact List.suffix_rfl

theorem splitRadix_suffix (text : List Char) : (splitRadix text).2 <:+ text := by
  unfold splitRadix
  split
  next digits hmark => simpa [hmark] using afterHexMark?_suffix text
  next =>
    split
    next => exact List.suffix_cons _ _
    next => exact List.suffix_rfl

theorem lt_of_forall₂ {radix : ℕ} {digits : List Char} {ds : List ℕ}
    (h : List.Forall₂ (SpellsDigit radix) digits ds) : ∀ d ∈ ds, d < radix := by
  induction h with
  | nil => simp
  | cons hc _ ih => simpa [hc.1] using ih

theorem three_le_length_of_denotes {radix : ℕ} (h : radix ≤ 16) {digits : List Char}
    (hn : Denotes radix digits n) (hlarge : 16 ^ 2 ≤ n) : 3 ≤ digits.length := by
  obtain ⟨_, ds, hds, rfl⟩ := hn
  have hlt : ∀ d ∈ ds.reverse, d < 16 := by
    simp only [List.mem_reverse]
    exact fun d hd => (lt_of_forall₂ hds d hd).trans_le h
  have hpow : 16 ^ 2 < 16 ^ ds.reverse.length :=
    calc 16 ^ 2
      _ ≤ Nat.ofDigits radix ds.reverse := hlarge
      _ ≤ Nat.ofDigits 16 ds.reverse := Nat.ofDigits_monotone _ h
      _ < 16 ^ ds.reverse.length := Nat.ofDigits_lt_base_pow_length (by decide) hlt
  have hlength := (Nat.pow_lt_pow_iff_right (by decide)).mp hpow
  rwa [List.length_reverse, ← hds.length_eq] at hlength

end Numeral

namespace Conversion

open Numeral

variable {c : Conversion} {text part : List Char} {z : ℤ}

theorem digits_split_suffix (c : Conversion) (text : List Char) :
    (c.split text).digits <:+ text := by
  cases c with
  | signed => exact splitSign_suffix text
  | detected => exact (splitRadix_suffix _).trans (splitSign_suffix text)
  | hex => exact (afterPlus_suffix _).trans (afterHexMark?_suffix text)
  | unsigned | octal | float | char | str => exact afterPlus_suffix text

/-- Three characters settle sign and mark, and what follows them belongs to the digits. -/
theorem split_append (c : Conversion) (h : 3 ≤ part.length) (rest : List Char) :
    c.split (part ++ rest) =
      { c.split part with digits := (c.split part).digits ++ rest } := by
  have hne : part ≠ [] := List.ne_nil_of_length_pos (by omega)
  cases c with
  | signed => simp [split, splitSign_append hne]
  | detected =>
    have hlength := length_le_splitSign part
    have hleft : 2 ≤ (splitSign part).2.length := by omega
    simp [split, splitSign_append hne, splitRadix_append hleft]
  | hex =>
    have hlength := length_le_afterHexMark? part
    have hleft : (afterHexMark? part).getD part ≠ [] := List.ne_nil_of_length_pos (by omega)
    have hmark : (afterHexMark? (part ++ rest)).getD (part ++ rest) =
        (afterHexMark? part).getD part ++ rest := by
      rw [afterHexMark?_append (by omega)]
      cases afterHexMark? part <;> rfl
    simp [split, hmark, afterPlus_append hleft]
  | unsigned | octal | float | char | str => simp [split, afterPlus_append hne]

theorem le_bound (c : Conversion) (negative : Bool) : 16 ^ 2 ≤ c.bound negative := by
  cases c <;> cases negative <;> decide

/-- A numeral beyond the bound at the start of a text is one at the start of its digits. -/
theorem exists_part_iff (hc : c.isInteger = true) :
    (∃ part z, part <+: text ∧ c.Spells part z ∧ ¬ c.Reads z) ↔
      ∃ run n, run <+: (c.split text).digits ∧ Denotes (c.split text).radix run n ∧
        c.bound (c.split text).negative < n := by
  constructor
  · rintro ⟨part, z, ⟨rest, rfl⟩, hspells, hreads⟩
    obtain ⟨n, hn, rfl⟩ := (spells_iff hc).mp hspells
    rw [reads_withSign_iff hc, not_le] at hreads
    have hdigits := three_le_length_of_denotes (radix_split_le c part) hn
      ((le_bound c _).trans hreads.le)
    have hlength := (c.digits_split_suffix part).length_le
    rw [c.split_append (by omega) rest]
    exact ⟨_, n, List.prefix_append _ _, hn, hreads⟩
  · rintro ⟨run, n, ⟨rest, hrest⟩, hn, hlt⟩
    obtain ⟨lead, hlead⟩ := c.digits_split_suffix text
    -- The numeral is what is left of the text without what comes after the run.
    have htext : text = (lead ++ run) ++ rest := by rw [List.append_assoc, hrest, hlead]
    have hrun := three_le_length_of_denotes (radix_split_le c text) hn
      ((le_bound c _).trans hlt.le)
    have hlength : 3 ≤ (lead ++ run).length := by
      rw [List.length_append]
      omega
    have hsplit := c.split_append hlength rest
    rw [← htext] at hsplit
    rw [hsplit] at hrest hn hlt
    have hdigits : run = (c.split (lead ++ run)).digits := List.append_cancel_right hrest
    refine ⟨lead ++ run, _, ⟨rest, htext.symm⟩, (spells_iff hc).mpr ⟨n, ?_, rfl⟩, ?_⟩
    · rw [← hdigits]
      exact hn
    · rw [reads_withSign_iff hc, not_le]
      exact hlt

theorem convert_eq_ok_iff (hc : c.isInteger = true) {text : String} {v : Value} :
    c.convert text = .ok v ↔
      ∃ z, c.Spells text.toList z ∧ c.InRange z ∧ c.valueOf z = v := by
  constructor
  · intro h
    obtain ⟨z, hz, hconvert⟩ | ⟨e, _, hconvert⟩ := convert_cases hc text
    · exact ⟨z, hz, ofNumber_eq_ok_iff.mp (hconvert.symm.trans h)⟩
    · cases hconvert.symm.trans h
  · rintro ⟨z, hz, hrange, rfl⟩
    rw [convert_of_spells hc hz, ofNumber_of_inRange hrange]

theorem convert_eq_outOfRange_iff (hc : c.isInteger = true) {text : String} :
    c.convert text = .error .outOfRange ↔
      (∃ z, c.Spells text.toList z ∧ ¬ c.InRange z) ∨
        ∃ part z, part <+: text.toList ∧ c.Spells part z ∧ ¬ c.Reads z := by
  have hread : c.read text.toList = .error .outOfRange ↔ _ :=
    magnitude_eq_outOfRange_iff (radix_split_le c text.toList)
  rw [exists_part_iff hc, ← hread]
  constructor
  · intro h
    obtain ⟨z, hz, hconvert⟩ | ⟨e, hread, hconvert⟩ := convert_cases hc text
    · exact .inl ⟨z, hz, (ofNumber_eq_error_iff.mp (hconvert.symm.trans h)).1⟩
    · cases hconvert.symm.trans h
      exact .inr hread
  · rintro (⟨z, hz, hrange⟩ | hread)
    · rw [convert_of_spells hc hz]
      exact ofNumber_eq_error_iff.mpr ⟨hrange, rfl⟩
    · rw [convert_eq hc, hread]
      rfl

theorem convert_ne_mismatch (hc : c.isInteger = true) (text : String) :
    c.convert text ≠ .error .mismatch := by
  intro h
  obtain ⟨z, hz, hconvert⟩ | ⟨e, hread, hconvert⟩ := convert_cases hc text
  · cases (ofNumber_eq_error_iff.mp (hconvert.symm.trans h)).2
  · cases hconvert.symm.trans h
    exact magnitude_ne_mismatch hread

/-- An integer conversion takes its numerals in range and no other text. A text is out of range if
it is a numeral beyond the range, or if it begins with one beyond what digits are read up to, and
malformed if it is no numeral and does not begin so. -/
theorem convert_iff_spells (hc : c.isInteger = true) (text : String) :
    (∀ v, c.convert text = .ok v ↔
        ∃ z, c.Spells text.toList z ∧ c.InRange z ∧ c.valueOf z = v) ∧
      (c.convert text = .error .outOfRange ↔
        (∃ z, c.Spells text.toList z ∧ ¬ c.InRange z) ∨
          ∃ part z, part <+: text.toList ∧ c.Spells part z ∧ ¬ c.Reads z) ∧
      (c.convert text = .error .malformed ↔
        (∀ z, ¬ c.Spells text.toList z) ∧
          ∀ part z, part <+: text.toList → c.Spells part z → c.Reads z) := by
  refine ⟨fun v => convert_eq_ok_iff hc, convert_eq_outOfRange_iff hc, ?_⟩
  constructor
  · intro h
    have hrange : ¬ c.convert text = .error .outOfRange := by simp [h]
    rw [convert_eq_outOfRange_iff hc, not_or] at hrange
    constructor
    · intro z hz
      have hout : c.InRange z := by_contra fun hout => hrange.1 ⟨z, hz, hout⟩
      rw [convert_of_spells hc hz, ofNumber_of_inRange hout] at h
      cases h
    · intro part z hpart hz
      exact by_contra fun hreads => hrange.2 ⟨part, z, hpart, hz, hreads⟩
  · rintro ⟨hnone, hreads⟩
    cases hconvert : c.convert text with
    | ok v =>
      obtain ⟨z, hz, _⟩ := (convert_eq_ok_iff hc).mp hconvert
      exact absurd hz (hnone z)
    | error e =>
      cases e with
      | malformed => rfl
      | mismatch => exact absurd hconvert (convert_ne_mismatch hc text)
      | outOfRange =>
        obtain ⟨z, hz, _⟩ | ⟨part, z, hpart, hz, hlarge⟩ :=
          (convert_eq_outOfRange_iff hc).mp hconvert
        · exact absurd hz (hnone z)
        · exact absurd (hreads part z hpart hz) hlarge

/-- The conversion that goes by the mark reads further than the range before it comes to the
letter, and finds no numeral. -/
theorem convert_iff_spells_letter :
    detected.isInteger = true ∧
      detected.convert "99999999999999999999x" = .error .malformed ∧
      (∀ z, ¬ detected.Spells "99999999999999999999x".toList z) ∧
      ∀ part z, part <+: "99999999999999999999x".toList → detected.Spells part z →
        detected.Reads z := by
  have hconvert : detected.convert "99999999999999999999x" = .error .malformed := by decide
  exact ⟨rfl, hconvert, (convert_iff_spells rfl _).2.2.mp hconvert⟩

/-- No numeral of the signed conversion has the letter, and the digits before it are beyond the
range. -/
theorem convert_eq_outOfRange_of_letter :
    (∀ text z, signed.Spells text z → 'x' ∉ text) ∧ 'x' ∈ "99999999999999999999x".toList ∧
      signed.convert "99999999999999999999x" = .error .outOfRange := by
  refine ⟨fun text z h hmem => ?_, by decide, by decide⟩
  have hdigit : digit? 10 'x' = none := by decide
  obtain ⟨n, hn, _⟩ := spells_signed_iff.mp h
  refine hn.not_mem (by decide) hdigit ?_
  unfold splitSign
  split <;> simpa using hmem

end Conversion

end GroupedOptions
