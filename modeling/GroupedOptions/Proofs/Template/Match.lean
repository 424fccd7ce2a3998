import GroupedOptions.Step

/-!
# Matches of a template

A template with a valid separator matches by its stem and one without by
equality. Of the tokens that a spaced template matches, its bare name is the
one whose value is still to come; no other token of any template is like that.
-/
namespace GroupedOptions

open Text

theorem Text.utf8ByteSize_ofList (cs : List Char) :
    (String.ofList cs).utf8ByteSize = octetCount cs := by
  induction cs with
  | nil => rfl
  | cons c cs ih => simp [String.ofList_cons, ih]

theorem Text.utf8ByteSize_eq (s : String) : s.utf8ByteSize = octetCount s.toList := by
  rw [← utf8ByteSize_ofList, String.ofList_toList]

theorem Text.charAt?_octetCount (a : List Char) (c : Char) (b : List Char) :
    charAt? (octetCount a) (a ++ c :: b) = some c := by
  simp [charAt?, dropOctets_octetCount]

theorem Text.octetCount_eq_zero {cs : List Char} (h : octetCount cs = 0) : cs = [] := by
  cases cs with
  | nil => rfl
  | cons c cs =>
    have hpos := c.utf8Size_pos
    rw [octetCount_cons] at h
    omega

namespace Template

variable {t : Template} {p : Parts} {token : String}

theorem match?_of_stem (hp : t.parts? = some p) (hs : p.stem <+: token.toList) :
    t.match? token = some (octetCount p.name) := by
  simp [match?, hp, Option.filter, List.isPrefixOf_iff_prefix.mpr hs]

/-- A match is by the stem, or by equality and then without a value part. -/
theorem match?_cases {sep : Nat} (h : t.match? token = some sep) :
    (∃ p, t.parts? = some p ∧ p.stem <+: token.toList ∧ sep = octetCount p.name) ∨
      (t.text = token ∧ sep = 0) := by
  unfold match? at h
  split at h
  next p hp =>
    obtain ⟨hparts, hstem⟩ := Option.filter_eq_some_iff.mp hp
    exact .inl ⟨p, hparts, List.isPrefixOf_iff_prefix.mp hstem, (Option.some.inj h).symm⟩
  next =>
    split at h
    next htext => exact .inr ⟨htext, (Option.some.inj h).symm⟩
    · cases h

theorem charAt?_mark (hp : t.parts? = some p) :
    charAt? (octetCount p.name) t.text.toList = some p.mark := by
  rw [toList_text_of_parts? hp]
  exact charAt?_octetCount p.name p.mark p.directive

theorem isSpaced_octetCount (hp : t.parts? = some p) :
    t.isSpaced (octetCount p.name) = true ↔ p.spaced = true ∧ p.name ≠ [] := by
  have hpos : 0 < octetCount p.name ↔ p.name ≠ [] := by
    constructor
    · rintro h heq
      simp [heq] at h
    · intro h
      exact Nat.pos_of_ne_zero fun heq => h (octetCount_eq_zero heq)
  cases hs : p.spaced <;> simp [isSpaced, charAt?_mark hp, hpos, Parts.mark, hs]

/-- The token is the name of a spaced template and nothing else. -/
def IsSpacedName (t : Template) (token : String) : Prop :=
  ∃ p, t.parts? = some p ∧ p.spaced = true ∧ p.name ≠ [] ∧ p.name = token.toList

theorem isSpacedName_iff (hp : t.parts? = some p) (hname : p.name ≠ []) :
    t.IsSpacedName token ↔ p.spaced = true ∧ p.name = token.toList := by
  constructor
  · rintro ⟨q, hq, hspaced, _, hq'⟩
    cases hp.symm.trans hq
    exact ⟨hspaced, hq'⟩
  · rintro ⟨hspaced, hname'⟩
    exact ⟨p, hp, hspaced, hname, hname'⟩

theorem IsSpacedName.match? (h : t.IsSpacedName token) :
    t.match? token = some token.utf8ByteSize := by
  obtain ⟨p, hp, hspaced, _, hname⟩ := h
  rw [match?_of_stem hp (by simp [Parts.stem, hspaced, hname]), hname, utf8ByteSize_eq]

/-- A spaced template also takes its name with anything after it. -/
theorem IsSpacedName.match?_append (h : t.IsSpacedName token) (value : String) :
    t.match? (token ++ value) = some token.utf8ByteSize := by
  obtain ⟨p, hp, hspaced, _, hname⟩ := h
  rw [match?_of_stem hp (by simp [Parts.stem, hspaced, hname]), hname, utf8ByteSize_eq]

theorem IsSpacedName.eq {token' : String} (h : t.IsSpacedName token)
    (h' : t.IsSpacedName token') : token = token' := by
  obtain ⟨p, hp, _, _, hname⟩ := h
  obtain ⟨q, hq, _, _, hname'⟩ := h'
  cases hp.symm.trans hq
  exact String.toList_injective (hname.symm.trans hname')

/-- With something attached, a bare name is no bare name of the same template any more. -/
theorem IsSpacedName.not_append (h : t.IsSpacedName token) {value : String} (hne : value ≠ "") :
    ¬ t.IsSpacedName (token ++ value) := by
  intro h'
  have hlist := congrArg String.toList (h.eq h')
  rw [String.toList_append, List.self_eq_append_right] at hlist
  exact hne (String.toList_injective hlist)

end Template

variable {D : Type}

theorem Row.hit?_eq_some {row : Row D} {token : String} {hit : Hit D} :
    row.hit? token = some hit ↔ row.templ.match? token = some hit.sep ∧ hit.row = row := by
  cases hit with
  | mk r sep =>
    simp only [hit?, Option.map_eq_some_iff, Hit.mk.injEq]
    constructor
    · rintro ⟨_, hm, rfl, rfl⟩
      exact ⟨hm, rfl⟩
    · rintro ⟨hm, rfl⟩
      exact ⟨sep, hm, rfl, rfl⟩

/-- A hit awaits a value exactly when the token is the bare name of its spaced template. -/
theorem Hit.awaitsValue_iff {hit : Hit D} {token : String}
    (h : hit.row.templ.match? token = some hit.sep) :
    hit.awaitsValue token = true ↔ hit.row.templ.IsSpacedName token := by
  simp only [Hit.awaitsValue, Bool.and_eq_true, beq_iff_eq]
  constructor
  · rintro ⟨hspaced, hsize⟩
    obtain ⟨p, hp, hstem, hsep⟩ | ⟨_, hsep⟩ := Template.match?_cases h
    · rw [hsep] at hspaced hsize
      obtain ⟨hs, hne⟩ := (Template.isSpaced_octetCount hp).mp hspaced
      obtain ⟨rest, hrest⟩ := hstem
      simp only [Template.Parts.stem, hs, if_true] at hrest
      rw [Text.utf8ByteSize_eq, ← hrest, Text.octetCount_append] at hsize
      have hnil : rest = [] := Text.octetCount_eq_zero (by omega)
      exact ⟨p, hp, hs, hne, by simpa [hnil] using hrest⟩
    · simp [Template.isSpaced, hsep] at hspaced
  · intro hname
    rw [hname.match?] at h
    obtain ⟨p, hp, hs, hne, hlist⟩ := hname
    have hsep : hit.sep = octetCount p.name := by
      rw [hlist, ← utf8ByteSize_eq]
      exact (Option.some.inj h).symm
    exact ⟨by rw [hsep]; exact (Template.isSpaced_octetCount hp).mpr ⟨hs, hne⟩, Option.some.inj h⟩

namespace Table

variable (t : Table D)

theorem mem_lookup {token : String} {hit : Hit D} :
    hit ∈ t.lookup token ↔ hit.row ∈ t.rows ∧ hit.row.templ.match? token = some hit.sep := by
  simp only [lookup, List.mem_filterMap, Row.hit?_eq_some]
  constructor
  · rintro ⟨row, hrow, hmatch, rfl⟩
    exact ⟨hrow, hmatch⟩
  · rintro ⟨hrow, hmatch⟩
    exact ⟨hit.row, hrow, hmatch, rfl⟩

/-- Some row takes the token for its bare name, whose value is the next token. -/
def Awaits (token : String) : Prop := ∃ h ∈ t.lookup token, h.awaitsValue token = true

instance (token : String) : Decidable (t.Awaits token) :=
  inferInstanceAs (Decidable (∃ h ∈ t.lookup token, h.awaitsValue token = true))

theorem awaits_iff {token : String} :
    t.Awaits token ↔ ∃ row ∈ t.rows, row.templ.IsSpacedName token := by
  constructor
  · rintro ⟨hit, hmem, hw⟩
    obtain ⟨hrow, hmatch⟩ := t.mem_lookup.mp hmem
    exact ⟨hit.row, hrow, (Hit.awaitsValue_iff hmatch).mp hw⟩
  · rintro ⟨row, hrow, hname⟩
    let hit : Hit D := ⟨row, token.utf8ByteSize⟩
    have hmatch : hit.row.templ.match? token = some hit.sep := hname.match?
    exact ⟨hit, t.mem_lookup.mpr ⟨hrow, hmatch⟩, (Hit.awaitsValue_iff hmatch).mpr hname⟩

theorem not_awaits_iff {t : Table D} {token : String} :
    ¬ t.Awaits token ↔ ∀ row ∈ t.rows, ¬ row.templ.IsSpacedName token := by
  simp [awaits_iff]

end Table

end GroupedOptions
