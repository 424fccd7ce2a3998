import GroupedOptions.Proofs.Template.Value

/-!
# Separators

A separator is the first `=` of a template, or the first space of one that has no `=`, and it
counts if nothing or a directive follows it. Templates that have one match the tokens that start
with their stem, and whatever follows the stem is the value; the others match themselves. A stem
is compared by octets, which comes to the same as comparing characters, so that the value starts
where a character does.
-/
namespace GroupedOptions.Template

open Text

structure HasParts (t : Template) (p : Parts) : Prop where
  text_eq : t.text.toList = p.name ++ p.mark :: p.directive
  mark_not_mem_name : p.mark ∉ p.name
  equals_not_mem_of_spaced : p.spaced = true → '=' ∉ t.text.toList
  directive_valid : p.directive = [] ∨ p.directive.head? = some '%'

variable {t : Template} {p : Parts} {token : String} {sep : Nat}

theorem cutAt_eq_none {mark : Char} {cs : List Char} : cutAt mark cs = none ↔ mark ∉ cs := by
  induction cs with
  | nil => simp [cutAt]
  | cons c cs ih =>
    by_cases h : c = mark
    · simp [cutAt, h]
    · simp [cutAt, h, ih, Ne.symm h]

/-- A template is cut at an `=` wherever it has one. -/
theorem cut?_eq_some_iff : t.cut? = some p ↔ t.text.toList = p.name ++ p.mark :: p.directive ∧
    p.mark ∉ p.name ∧ (p.spaced = true → '=' ∉ t.text.toList) := by
  obtain ⟨name, spaced, directive⟩ := p
  cases spaced with
  | false =>
    have hcut : t.cut? = some ⟨name, false, directive⟩ ↔
        cutAt '=' t.text.toList = some (name, directive) := by
      unfold cut?
      cases cutAt '=' t.text.toList <;> simp [Prod.ext_iff]
    rw [hcut, cutAt_eq_some]
    simp [Parts.mark]
  | true =>
    have hcut : t.cut? = some ⟨name, true, directive⟩ ↔
        cutAt '=' t.text.toList = none ∧ cutAt ' ' t.text.toList = some (name, directive) := by
      unfold cut?
      cases cutAt '=' t.text.toList <;> simp
    rw [hcut, cutAt_eq_none, cutAt_eq_some]
    constructor
    · rintro ⟨hequals, htext, hspace⟩
      exact ⟨htext, hspace, fun _ => hequals⟩
    · rintro ⟨htext, hspace, hequals⟩
      exact ⟨hequals rfl, htext, hspace⟩

theorem hasParts_iff : t.HasParts p ↔ t.parts? = some p := by
  have hvalid : (p.directive.isEmpty || p.directive.head? == some '%') = true ↔
      p.directive = [] ∨ p.directive.head? = some '%' := by simp
  rw [parts?, Option.filter_eq_some_iff, cut?_eq_some_iff, hvalid]
  constructor
  · intro h
    exact ⟨⟨h.text_eq, h.mark_not_mem_name, h.equals_not_mem_of_spaced⟩, h.directive_valid⟩
  · rintro ⟨⟨htext, hname, hequals⟩, hdirective⟩
    exact ⟨htext, hname, hequals, hdirective⟩

theorem separator?_eq_some_iff :
    t.separator? = some sep ↔ ∃ p, t.HasParts p ∧ sep = octetCount p.name := by
  simp only [separator?, Option.map_eq_some_iff, hasParts_iff, eq_comm (a := sep)]

/-- A token that a template matches by its stem is the stem and the value. -/
theorem eq_stem_append_valuePart (hp : t.HasParts p) (h : t.match? token = some sep) :
    token.toList = p.stem ++ (t.valuePart sep token).toList := by
  obtain ⟨⟨rest, hrest⟩, rfl⟩ := (match?_eq_some_iff (hasParts_iff.mp hp)).mp h
  rw [valuePart_eq (hasParts_iff.mp hp) hrest.symm, String.toList_ofList, hrest]

/-- A template that has a separator matches the tokens that start with its stem, and its separator
is the offset of the match; a template that has none matches itself, at offset 0. In a match by a
stem the token is the stem with the value after it, and the value starts between two characters. -/
theorem match?_iff_stem_or_eq (t : Template) (token : String) (sep : Nat) :
    (t.separator? = some sep ↔ ∃ p, t.HasParts p ∧ sep = octetCount p.name) ∧
      (t.match? token = some sep ↔
        (∃ p, t.HasParts p ∧ toOctets p.stem <+: toOctets token.toList ∧
            sep = octetCount p.name) ∨
          ((∀ p, ¬ t.HasParts p) ∧ t.text = token ∧ sep = 0)) ∧
      ∀ p, t.HasParts p → t.match? token = some sep →
        token = String.ofList p.stem ++ t.valuePart sep token ∧
          dropOctets (octetCount p.stem) token.toList = some (t.valuePart sep token).toList := by
  refine ⟨separator?_eq_some_iff, ?_, fun p hp hmatch => ?_⟩
  · simp only [toOctets_prefix_iff]
    cases hparts : t.parts? with
    | some p => simp [match?_eq_some_iff hparts, hasParts_iff, hparts]
    | none =>
      rw [match?_of_parts?_eq_none hparts, Option.ite_none_right_eq_some]
      simp [hasParts_iff, hparts, eq_comm]
  · have htoken := eq_stem_append_valuePart hp hmatch
    constructor
    · rw [← String.toList_inj, String.toList_append, String.toList_ofList, ← htoken]
    · rw [htoken]
      exact dropOctets_octetCount p.stem _

end GroupedOptions.Template
