import GroupedOptions.Config
import GroupedOptions.Proofs.Template.Match

/-!
# Values of a match

Whatever token a template matches, the directive that counts is the one after its separator, and
the value is what follows the stem. A row whose template has a supported directive therefore
stores a converted value, and a row whose template has none stores its fixed value.
-/
namespace GroupedOptions

open Text

namespace Template

variable {t : Template} {p : Parts} {token : String} {sep : Nat}

theorem stem_prefix_text (hp : t.parts? = some p) : p.stem <+: t.text.toList := by
  rw [toList_text_of_parts? hp]
  cases hs : p.spaced with
  | true => exact ⟨p.mark :: p.directive, by simp [Parts.stem, hs]⟩
  | false => exact ⟨p.directive, by simp [Parts.stem, Parts.mark, hs]⟩

/-- A template with a separator matches by its stem and in no other way. -/
theorem match?_eq_some_iff (hp : t.parts? = some p) :
    t.match? token = some sep ↔ p.stem <+: token.toList ∧ sep = octetCount p.name := by
  constructor
  · intro h
    have hstem : p.stem <+: token.toList := by
      obtain ⟨q, hq, hstem, _⟩ | ⟨htext, _⟩ := match?_cases h
      · cases hp.symm.trans hq
        exact hstem
      · exact htext ▸ stem_prefix_text hp
    rw [match?_of_stem hp hstem] at h
    exact ⟨hstem, (Option.some.inj h).symm⟩
  · rintro ⟨hstem, rfl⟩
    exact match?_of_stem hp hstem

theorem match?_of_parts?_eq_none (hp : t.parts? = none) :
    t.match? token = if t.text = token then some 0 else none := by
  simp [match?, hp]

theorem exists_match?_text (t : Template) : ∃ sep, t.match? t.text = some sep := by
  cases hp : t.parts? with
  | none => exact ⟨0, by rw [match?_of_parts?_eq_none hp, if_pos rfl]⟩
  | some p => exact ⟨_, match?_of_stem hp (stem_prefix_text hp)⟩

/-- The text of a spaced template goes on after its name. -/
theorem not_isSpacedName_text (t : Template) : ¬ t.IsSpacedName t.text := by
  rintro ⟨p, hp, _, _, hname⟩
  have hlength := congrArg List.length (toList_text_of_parts? hp)
  rw [← hname, List.length_append, List.length_cons] at hlength
  omega

/-- A character that is no separator mark changes nothing about the separator. -/
theorem parts?_cons_eq_none {c : Char} {cs : List Char} (heq : c ≠ '=') (hspace : c ≠ ' ')
    (h : parts? ⟨String.ofList cs⟩ = none) : parts? ⟨String.ofList (c :: cs)⟩ = none := by
  have hcut : cut? ⟨String.ofList (c :: cs)⟩ =
      (cut? ⟨String.ofList cs⟩).map fun p => { p with name := c :: p.name } := by
    simp only [cut?, String.toList_ofList, cutAt, if_neg heq, if_neg hspace]
    cases cutAt '=' cs with
    | some cut => rfl
    | none => cases cutAt ' ' cs <;> rfl
  unfold parts? at h ⊢
  rw [hcut]
  cases hp : cut? ⟨String.ofList cs⟩ with
  | none => rfl
  | some p => simpa [hp, Option.filter] using h

theorem conversion?_zero (t : Template) : t.conversion? 0 = none := rfl

/-- The directive of a match is the one after the separator. -/
theorem conversion?_of_match? (h : t.match? token = some sep) :
    t.conversion? sep = OptionDecl.directive? t := by
  cases hp : t.parts? with
  | some p =>
    obtain ⟨_, rfl⟩ := (match?_eq_some_iff hp).mp h
    simp [OptionDecl.directive?, separator?, hp]
  | none =>
    obtain ⟨p, hp', _⟩ | ⟨_, rfl⟩ := match?_cases h
    · cases hp.symm.trans hp'
    · simp [OptionDecl.directive?, separator?, hp, conversion?_zero]

theorem valuePart_eq (hp : t.parts? = some p) {rest : List Char}
    (h : token.toList = p.stem ++ rest) :
    t.valuePart (octetCount p.name) token = String.ofList rest := by
  have hstart : (if charAt? (octetCount p.name) t.text.toList = some '=' then
      octetCount p.name + 1 else octetCount p.name) = octetCount p.stem := by
    rw [charAt?_mark hp]
    cases hs : p.spaced <;> simp [Parts.mark, Parts.stem, hs, Char.utf8Size]
  simp only [valuePart, hstart, h, dropOctets_octetCount]
  rfl

/-- The value of an option: what follows the stem, or the next token after the bare name of a
spaced template. -/
def value (t : Template) (token : String) (next : Option String) : String :=
  match t.parts? with
  | none => ""
  | some p =>
      if p.spaced ∧ p.name = token.toList then next.getD ""
      else String.ofList (token.toList.drop p.stem.length)

end Template

namespace OptionDecl

/-- The conversion that the directive of a template names. -/
def conversion? (t : Template) : Option Conversion := (directive? t).bind Conversion.parse?

theorem directive?_eq_none_of_parts? {t : Template} (h : t.parts? = none) :
    directive? t = none := by
  simp [directive?, Template.separator?, h]

theorem exists_parts_of_directive? {t : Template} {directive : String}
    (h : directive? t = some directive) : ∃ p, t.parts? = some p ∧ p.name ≠ [] := by
  unfold directive? Template.separator? at h
  cases hp : t.parts? with
  | none => simp [hp] at h
  | some p =>
    refine ⟨p, rfl, ?_⟩
    intro hname
    simp [hp, hname, Template.conversion?_zero] at h

end OptionDecl

namespace Hit

variable {D : Type} {hit : Hit D} {token : String}

/-- A supported directive is obeyed, whatever the fixed value of the row. -/
theorem stored_of_conversion? (hmatch : hit.row.templ.match? token = some hit.sep)
    {c : Conversion} (hc : OptionDecl.conversion? hit.row.templ = some c) (text : String)
    (fixed : Int64) : hit.stored text fixed =
      (c.convert (hit.row.templ.valuePart hit.sep text)).mapError (.invalidConversion text) := by
  obtain ⟨directive, hdirective, hparse⟩ := Option.bind_eq_some_iff.mp hc
  unfold stored
  rw [Template.conversion?_of_match? hmatch, hdirective]
  simp only [hparse]
  cases c.convert (hit.row.templ.valuePart hit.sep text) <;> rfl

theorem stored_of_directive?_eq_none (hmatch : hit.row.templ.match? token = some hit.sep)
    (h : OptionDecl.directive? hit.row.templ = none) (text : String) (fixed : Int64) :
    hit.stored text fixed = .ok (.int fixed) := by
  unfold stored
  rw [Template.conversion?_of_match? hmatch, h]

/-- The token as the row is given it, with the value after it where the row awaits one. -/
def text (h : Hit D) (token value : String) : String :=
  if h.awaitsValue token then token ++ value else token

theorem text_cases (hmatch : hit.row.templ.match? token = some hit.sep) (value : String) :
    hit.text token value = token ∨
      (hit.row.templ.IsSpacedName token ∧ hit.text token value = token ++ value) := by
  unfold text
  split
  next hw => exact .inr ⟨(awaitsValue_iff hmatch).mp hw, rfl⟩
  next => exact .inl rfl

theorem valuePart_eq_value (hmatch : hit.row.templ.match? token = some hit.sep)
    {directive : String} (h : OptionDecl.directive? hit.row.templ = some directive)
    (next : Option String) :
    hit.row.templ.valuePart hit.sep (hit.text token (next.getD "")) =
      hit.row.templ.value token next := by
  unfold text
  obtain ⟨p, hp, hname⟩ := OptionDecl.exists_parts_of_directive? h
  obtain ⟨⟨rest, hrest⟩, hsep⟩ := (Template.match?_eq_some_iff hp).mp hmatch
  have hawaits : hit.awaitsValue token = true ↔ p.spaced = true ∧ p.name = token.toList := by
    rw [awaitsValue_iff hmatch, Template.isSpacedName_iff hp hname]
  rw [hsep]
  by_cases hbare : p.spaced = true ∧ p.name = token.toList
  · have htext : (token ++ next.getD "").toList = p.stem ++ (next.getD "").toList := by
      simp [Template.Parts.stem, hbare.1, hbare.2]
    rw [if_pos (hawaits.mpr hbare), Template.valuePart_eq hp htext]
    simp [Template.value, hp, hbare.1, hbare.2]
  · rw [if_neg (mt hawaits.mp hbare), Template.valuePart_eq hp hrest.symm]
    simp only [Template.value, hp, if_neg hbare]
    rw [← hrest, List.drop_left]

/-- A field row with a supported directive stores what the conversion makes of the value. -/
theorem stepWith_of_conversion? (hmatch : hit.row.templ.match? token = some hit.sep)
    {c : Conversion} (hc : OptionDecl.conversion? hit.row.templ = some c) {field : Field D}
    {fixed : Int64} (hdest : hit.row.dest = .field field fixed) (place : Place)
    (next : Option String) :
    hit.stepWith place token (next.getD "") =
      match c.convert (hit.row.templ.value token next) with
      | .ok v => .store field (hit.text token (next.getD "")) v
      | .error cause => .fail (.invalidConversion (hit.text token (next.getD "")) cause) := by
  obtain ⟨directive, hdirective, _⟩ := Option.bind_eq_some_iff.mp hc
  have hstored := stored_of_conversion? hmatch hc (hit.text token (next.getD "")) fixed
  rw [valuePart_eq_value hmatch hdirective] at hstored
  have hstep : hit.stepWith place token (next.getD "") =
      hit.step place (hit.text token (next.getD "")) := rfl
  rw [hstep]
  unfold step
  simp only [hdest, hstored]
  cases c.convert (hit.row.templ.value token next) <;> rfl

theorem stepWith_of_directive?_eq_none (hmatch : hit.row.templ.match? token = some hit.sep)
    (h : OptionDecl.directive? hit.row.templ = none) {field : Field D} {fixed : Int64}
    (hdest : hit.row.dest = .field field fixed) (place : Place) (value : String) :
    hit.stepWith place token value = .store field (hit.text token value) (.int fixed) := by
  have hstep : hit.stepWith place token value = hit.step place (hit.text token value) := rfl
  rw [hstep]
  unfold step
  simp only [hdest, stored_of_directive?_eq_none hmatch h]

theorem stepWith_of_key {key : Key} (hdest : hit.row.dest = .key key) (place : Place)
    (value : String) :
    hit.stepWith place token value = .offer key place (hit.text token value) := by
  simp [stepWith, step, text, hdest]

end Hit

end GroupedOptions
