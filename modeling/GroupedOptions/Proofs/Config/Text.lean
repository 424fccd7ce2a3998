import GroupedOptions.Proofs.Json.Fields
import GroupedOptions.Proofs.Json.Range

/-!
# The texts of a configuration

A configuration has many texts: it may be an object or an array, and so may each of its
declarations, fields may be left out where they are what stands for nothing, and members of other
names may stand anywhere in an object. The main statement is that every one of them is read as the
configuration, unless an integer that a declaration passes over is out of range.
-/
namespace GroupedOptions

open Json

def Policy.name : Policy → String
  | keep => "keep"
  | discard => "discard"
  | error => "error"

/-- A policy is written as its name, or as an object with the name as its only key. -/
inductive Policy.Writes (p : Policy) : Json → Prop
  | name : Writes p (.string (some p.name))
  | object : Writes p (.object [(some p.name, .null)])

namespace Json

def ofOptional : Option String → Json
  | some text => .string (some text)
  | none => .null

namespace FieldForm

/-- A field that must be there, with the given value. -/
@[simps]
def exactly (name : String) (v : Json) : FieldForm := ⟨name, (· = v), False, False⟩

abbrev text (name text : String) : FieldForm := exactly name (.string (some text))

abbrev fixed (name : String) (n : Int64) : FieldForm := exactly name (.number (.ofInt n.toInt))

@[simps]
def optional (name : String) (text : Option String) : FieldForm :=
  ⟨name, (· = ofOptional text), text = none, False⟩

@[simps]
def policy (name : String) (p : Policy) : FieldForm := ⟨name, p.Writes, p = .keep, p = .keep⟩

end FieldForm

/-- A value of an unknown name: anything but a container or a number with a point or a mark. -/
inductive IsScalar : Json → Prop
  | null : IsScalar .null
  | bool (b : Bool) : IsScalar (.bool b)
  | string (text : String) : IsScalar (.string (some text))
  | integer {negative digits} : IsNumeral digits → IsScalar (.number (.integer negative digits))

def number? : Json → Option Literal
  | .number l => some l
  | _ => none

/-- The numbers among the values of unknown names. -/
def numbers (members : List (String × Json)) : List Literal := members.filterMap (·.2.number?)

end Json

namespace OptionDecl

def kind : OptionDecl → String
  | flag _ _ _ => "flag"
  | value _ _ => "value"
  | set _ _ _ => "set"
  | toggle _ _ => "toggle"
  | keep _ => "keep"
  | discard _ => "discard"

def fields : OptionDecl → List FieldForm
  | flag t name policy => [.text "template" t.text, .optional "name" name, .policy "policy" policy]
  | value t name => [.text "template" t.text, .optional "name" name]
  | set t name n => [.text "template" t.text, .optional "name" name, .fixed "value" n]
  | toggle t name => [.text "template" t.text, .optional "name" name]
  | keep t => [.text "template" t.text]
  | discard t => [.text "template" t.text]

/-- A declaration in JSON, with the numbers that it has under unknown names. -/
inductive Writes (d : OptionDecl) : List Literal → Json → Prop
  | object {others members} : IsObjectOf (.text "kind" d.kind :: d.fields) others members →
      (∀ m ∈ others, m.2.IsScalar) → Writes d (numbers others) (ofMembers members)
  | array {items} : IsArrayOf d.fields items →
      Writes d [] (.array (.string (some d.kind) :: items))

/-- Declarations in JSON, with the numbers that all of them have under unknown names. -/
inductive WritesAll : List OptionDecl → List Literal → List Json → Prop
  | nil : WritesAll [] [] []
  | cons {d ds strays others v vs} : Writes d strays v → WritesAll ds others vs →
      WritesAll (d :: ds) (strays ++ others) (v :: vs)

end OptionDecl

namespace Config

/-- The numbers are those that the declarations have under unknown names. -/
def fields (c : Config) (strays : List Literal) : List FieldForm :=
  [.optional "name" c.name, .optional "prefix" c.varPrefix,
    ⟨"options", fun v => ∃ items, v = .array items ∧ OptionDecl.WritesAll c.options strays items,
      c.options = [] ∧ strays = [], c.options = [] ∧ strays = []⟩,
    .policy "positional" c.positional, .policy "unmatched" c.unmatched]

/-- A configuration in JSON, with the numbers that its declarations have under unknown names. -/
inductive Writes (c : Config) (strays : List Literal) : Json → Prop
  | object {others members} : IsObjectOf (c.fields strays) others members →
      (∀ m ∈ others, m.2.IsScalar) → Writes c strays (ofMembers members)
  | array {items} : IsArrayOf (c.fields strays) items → Writes c strays (.array items)

end Config

theorem Policy.ofName?_name (p : Policy) : ofName? p.name = some p := by
  cases p <;> rfl

theorem Policy.Writes.ofJson?_eq {p : Policy} {v : Json} (h : p.Writes v) :
    ofJson? v = some p ∧ ofInnerJson? v = some p := by
  cases h <;> exact ⟨p.ofName?_name, p.ofName?_name⟩

namespace Json

variable {fields : List FieldForm} {members : List (String × Json)}

theorem Finds.exactly (h : Finds fields members) (name : String) (v : Json)
    (hmem : .exactly name v ∈ fields) : member? name members = some (some v) := by
  obtain ⟨w, hmember, hfinds⟩ := h _ hmem
  cases w with
  | none => exact hfinds.elim
  | some w => exact hmember.trans (congrArg (fun v => some (some v)) hfinds)

theorem Finds.optional (h : Finds fields members) (name : String) (text : Option String)
    (hmem : .optional name text ∈ fields) :
    ∃ v, member? name members = some v ∧ optionalText? v = some text := by
  obtain ⟨v, hmember, hfinds⟩ := h _ hmem
  refine ⟨v, hmember, ?_⟩
  cases v with
  | none => rw [(hfinds : text = none)]; rfl
  | some v =>
    rw [(hfinds : v = ofOptional text)]
    cases text <;> rfl

theorem Finds.policy (h : Finds fields members) (name : String) (p : Policy)
    (hmem : .policy name p ∈ fields) :
    ∃ v, member? name members = some v ∧ (v = none → p = .keep) ∧ ∀ w ∈ v, p.Writes w := by
  obtain ⟨v, hmember, hfinds⟩ := h _ hmem
  refine ⟨v, hmember, ?_⟩
  cases v with
  | none => exact ⟨fun _ => hfinds, nofun⟩
  | some v => exact ⟨nofun, fun w hw => Option.some.inj hw ▸ hfinds⟩

end Json

namespace OptionDecl

theorem fieldNames?_kind (d : OptionDecl) :
    fieldNames? d.kind = some (d.fields.map (·.name)) := by
  cases d <;> rfl

theorem nodup_fields (d : OptionDecl) :
    ((FieldForm.text "kind" d.kind :: d.fields).map (·.name)).Nodup := by
  cases d <;> simp [fields]

theorem mayOmit_of_mayEnd (d : OptionDecl) : ∀ f ∈ d.fields, f.mayEnd → f.mayOmit := by
  cases d <;> simp [fields]

/-- Only the policy of a flag may be missing at the end. -/
theorem length_of_isArrayOf {d : OptionDecl} {items : List Json} (h : IsArrayOf d.fields items) :
    items.length = d.fields.length ∨ d.kind = "flag" ∧ items.length + 1 = d.fields.length := by
  have hle := h.length_le
  cases d with
  | flag t name policy =>
    have hge : 2 ≤ items.length := IsArrayOf.le_length
      [.text "template" t.text, .optional "name" name] [.policy "policy" policy] h (by simp)
    have hle : items.length ≤ 3 := hle
    have hcases : items.length = 3 ∨ items.length + 1 = 3 := by omega
    exact hcases.imp_right fun hlength => ⟨rfl, hlength⟩
  | _ =>
    rw [← List.append_nil (fields _)] at h
    have hge := IsArrayOf.le_length _ [] h (by simp [fields])
    exact .inl (Nat.le_antisymm hle hge)

/-- A declaration is read from the fields of its kind. -/
theorem ofFields?_of_finds {d : OptionDecl} {members : List (String × Json)}
    (h : Finds d.fields members) : ofFields? d.kind members = some d := by
  have htempl : member? "template" members = some (some (.string (some d.templ.text))) :=
    h.exactly "template" _ (by cases d <;> exact List.mem_cons_self)
  cases d with
  | flag t name policy =>
    obtain ⟨v, hname, hv⟩ := h.optional "name" name (by simp [fields])
    obtain ⟨w, hpolicy, hw, hw'⟩ := h.policy "policy" policy (by simp [fields])
    cases w with
    | none => simp [ofFields?, kind, templ, htempl, text?, hname, hv, hpolicy, hw]
    | some w =>
      have hinner := (hw' w rfl).ofJson?_eq.2
      simp [ofFields?, kind, templ, htempl, text?, hname, hv, hpolicy, hinner]
  | value t name =>
    obtain ⟨v, hname, hv⟩ := h.optional "name" name (by simp [fields])
    simp [ofFields?, kind, templ, htempl, text?, hname, hv]
  | set t name n =>
    obtain ⟨v, hname, hv⟩ := h.optional "name" name (by simp [fields])
    have hvalue := h.exactly "value" (.number (.ofInt n.toInt)) (by simp [fields])
    simp [ofFields?, kind, templ, htempl, text?, hname, hv, hvalue, fixed?_ofInt]
  | toggle t name =>
    obtain ⟨v, hname, hv⟩ := h.optional "name" name (by simp [fields])
    simp [ofFields?, kind, templ, htempl, text?, hname, hv]
  | keep t => simp [ofFields?, kind, templ, htempl, text?]
  | discard t => simp [ofFields?, kind, templ, htempl, text?]

theorem exists_integer_of_mem_numbers {others : List (String × Json)}
    (h : ∀ m ∈ others, m.2.IsScalar) {l : Literal} (hl : l ∈ numbers others) :
    ∃ negative digits, IsNumeral digits ∧ l = .integer negative digits := by
  obtain ⟨⟨key, v⟩, hm, hnumber⟩ := List.mem_filterMap.mp hl
  have hscalar : v.IsScalar := h (key, v) hm
  cases hscalar with
  | @integer negative digits hdigits =>
    exact ⟨negative, digits, hdigits, (Option.some.inj hnumber).symm⟩
  | null => exact absurd hnumber nofun
  | bool b => exact absurd hnumber nofun
  | string text => exact absurd hnumber nofun

theorem isPlain_of_isScalar {v : Json} (h : v.IsScalar) :
    v.isPlain = v.number?.all Literal.inRange := by
  cases h <;> rfl

theorem depth_of_isScalar {v : Json} (h : v.IsScalar) : v.depth = 0 := by
  cases h <;> rfl

theorem all_isPlain_others {others : List (String × Json)} (h : ∀ m ∈ others, m.2.IsScalar) :
    others.all (·.2.isPlain) = (numbers others).all Literal.inRange := by
  induction others with
  | nil => rfl
  | cons m others ih =>
    have hm := isPlain_of_isScalar (h m List.mem_cons_self)
    have hrest := ih fun m' hm' => h m' (List.mem_cons_of_mem m hm')
    rw [List.all_cons, hm, hrest, numbers, numbers, List.filterMap_cons]
    cases m.2.number? with
    | none => rfl
    | some l => rfl

end OptionDecl

/-- The values of a field are read as they are and nest one container at most. -/
def Json.FieldForm.IsShallow (f : FieldForm) : Prop :=
  ∀ v, f.writes v → v.isPlain = true ∧ v.depth ≤ 1

theorem isShallow_exactly (name : String) {v : Json} (hplain : v.isPlain = true)
    (hdepth : v.depth ≤ 1) : (FieldForm.exactly name v).IsShallow := by
  rintro w ⟨⟩
  exact ⟨hplain, hdepth⟩

theorem isShallow_text (name text : String) : (FieldForm.text name text).IsShallow :=
  isShallow_exactly name rfl (Nat.zero_le 1)

theorem isShallow_fixed (name : String) (n : Int64) : (FieldForm.fixed name n).IsShallow :=
  isShallow_exactly name (inRange_ofInt n) (Nat.zero_le 1)

theorem isShallow_optional (name : String) (text : Option String) :
    (FieldForm.optional name text).IsShallow := by
  rintro v ⟨⟩
  cases text <;> exact ⟨rfl, Nat.zero_le 1⟩

theorem isShallow_policy (name : String) (p : Policy) : (FieldForm.policy name p).IsShallow := by
  intro v hv
  cases (show p.Writes v from hv) with
  | name => exact ⟨rfl, Nat.zero_le 1⟩
  | object => exact ⟨rfl, Nat.le_refl 1⟩

namespace OptionDecl

theorem isShallow_of_mem_fields (d : OptionDecl) :
    ∀ f ∈ FieldForm.text "kind" d.kind :: d.fields, f.IsShallow := by
  cases d <;>
    simp [fields, isShallow_text, isShallow_optional, isShallow_policy, isShallow_fixed]

theorem isPlain_object {d : OptionDecl} {others members : List (String × Json)}
    (h : IsObjectOf (.text "kind" d.kind :: d.fields) others members)
    (hothers : ∀ m ∈ others, m.2.IsScalar) :
    (ofMembers members).isPlain = (numbers others).all Literal.inRange := by
  obtain ⟨chosen, hchosen, hperm⟩ := h.exists_perm
  have hall : chosen.all (·.2.isPlain) = true := by
    refine List.all_eq_true.mpr fun m hm => ?_
    obtain ⟨f, hf, -, hwrites⟩ := hchosen.exists_field_of_mem hm
    exact (d.isShallow_of_mem_fields f hf m.2 hwrites).1
  rw [isPlain_ofMembers, hperm.all_eq, List.all_append, hall, Bool.true_and,
    all_isPlain_others hothers]

theorem depth_object {d : OptionDecl} {others members : List (String × Json)}
    (h : IsObjectOf (.text "kind" d.kind :: d.fields) others members)
    (hothers : ∀ m ∈ others, m.2.IsScalar) : (ofMembers members).depth ≤ 2 := by
  obtain ⟨chosen, hchosen, hperm⟩ := h.exists_perm
  refine depth_ofMembers_le fun m hm => ?_
  rcases List.mem_append.mp (hperm.subset hm) with hm | hm
  · obtain ⟨f, hf, -, hwrites⟩ := hchosen.exists_field_of_mem hm
    exact (d.isShallow_of_mem_fields f hf m.2 hwrites).2
  · exact (depth_of_isScalar (hothers m hm)).le.trans (Nat.zero_le 1)

theorem isPlain_array {d : OptionDecl} {items : List Json} (h : IsArrayOf d.fields items) :
    (array (.string (some d.kind) :: items)).isPlain = true ∧
      (array (.string (some d.kind) :: items)).depth ≤ 2 := by
  have hshallow (v : Json) (hv : v ∈ items) : v.isPlain = true ∧ v.depth ≤ 1 := by
    obtain ⟨f, hf, hwrites⟩ := h.exists_field_of_mem hv
    exact d.isShallow_of_mem_fields f (List.mem_cons_of_mem _ hf) v hwrites
  refine ⟨?_, depth_array_le fun v hv => ?_⟩
  · rw [Json.isPlain_array, List.all_cons, List.all_eq_true.mpr fun v hv => (hshallow v hv).1]
    rfl
  · rcases List.mem_cons.mp hv with rfl | hv
    · exact Nat.zero_le 1
    · exact (hshallow v hv).2

/-- A declaration is read unless a number that it passes over is out of range. -/
theorem Writes.ofJson?_eq {d : OptionDecl} {strays : List Literal} {v : Json}
    (h : d.Writes strays v) :
    ofJson? v = if strays.all Literal.inRange then some d else none := by
  cases h with
  | @object others members hobject hothers =>
    have hdepth : ¬ maxDepth < (ofMembers members).depth :=
      Nat.not_lt.mpr ((depth_object hobject hothers).trans (by decide))
    have hfinds := hobject.finds d.nodup_fields
    have hkind := hfinds.exactly "kind" (.string (some d.kind)) List.mem_cons_self
    have hread : ofFields? d.kind members = some d :=
      ofFields?_of_finds fun f hf => hfinds f (List.mem_cons_of_mem _ hf)
    have hopen : ofJson? (ofMembers members) =
        if !(ofMembers members).isPlain || maxDepth < (ofMembers members).depth then none
        else (ofMembers members).members?.bind fun fields => (member? "kind" fields).bind fun v =>
          (v.bind text?).bind fun kind => ofFields? kind fields := rfl
    rw [hopen, isPlain_object hobject hothers, members?_ofMembers]
    cases (numbers others).all Literal.inRange <;> simp [hdepth, hkind, text?, hread]
  | @array items hitems =>
    obtain ⟨hplain, hdepth⟩ := isPlain_array hitems
    have hdepth : ¬ maxDepth < (Json.array (.string (some d.kind) :: items)).depth :=
      Nat.not_lt.mpr (hdepth.trans (by decide))
    have hread : ofFields? d.kind ((d.fields.map (·.name)).zip items) = some d :=
      ofFields?_of_finds (hitems.finds d.mayOmit_of_mayEnd (List.nodup_cons.mp d.nodup_fields).2)
    have hlength := length_of_isArrayOf hitems
    have hopen : ofJson? (.array (.string (some d.kind) :: items)) =
        if !(Json.array (.string (some d.kind) :: items)).isPlain ||
          maxDepth < (Json.array (.string (some d.kind) :: items)).depth then none
        else ofItems? d.kind items := rfl
    rw [hopen, hplain, ofItems?, fieldNames?_kind]
    simp [hdepth, hread, hlength]

/-- Declarations are read unless a number that one of them passes over is out of range. -/
theorem WritesAll.mapM_ofJson?_eq {ds : List OptionDecl} {strays : List Literal}
    {items : List Json} (h : WritesAll ds strays items) :
    items.mapM ofJson? = if strays.all Literal.inRange then some ds else none := by
  induction h with
  | nil => rfl
  | @cons d ds strays others v vs hv _ ih =>
    rw [List.mapM_cons, hv.ofJson?_eq, ih, List.all_append]
    cases strays.all Literal.inRange <;> cases others.all Literal.inRange <;> rfl

theorem Writes.exists_integer {d : OptionDecl} {strays : List Literal} {v : Json}
    (h : d.Writes strays v) {l : Literal} (hl : l ∈ strays) :
    ∃ negative digits, IsNumeral digits ∧ l = .integer negative digits := by
  cases h with
  | object _ hothers => exact exists_integer_of_mem_numbers hothers hl
  | array _ => exact absurd hl List.not_mem_nil

theorem WritesAll.exists_integer {ds : List OptionDecl} {strays : List Literal}
    {items : List Json} (h : WritesAll ds strays items) {l : Literal} (hl : l ∈ strays) :
    ∃ negative digits, IsNumeral digits ∧ l = .integer negative digits := by
  induction h with
  | nil => exact absurd hl List.not_mem_nil
  | cons hv _ ih =>
    rcases List.mem_append.mp hl with hl | hl
    · exact hv.exists_integer hl
    · exact ih hl

end OptionDecl

namespace Config

theorem nodup_fields (c : Config) (strays : List Literal) :
    ((c.fields strays).map (·.name)).Nodup := by
  simp [fields]

theorem mayOmit_of_mayEnd (c : Config) (strays : List Literal) :
    ∀ f ∈ c.fields strays, f.mayEnd → f.mayOmit := by
  simp [fields]

/-- The declarations are left out where there are none. -/
theorem exists_member?_options {c : Config} {strays : List Literal}
    {members : List (String × Json)} (h : Finds (c.fields strays) members) :
    (member? "options" members = some none ∧ c.options = [] ∧ strays = []) ∨
      ∃ items, member? "options" members = some (some (.array items)) ∧
        OptionDecl.WritesAll c.options strays items := by
  obtain ⟨v, hmember, hfinds⟩ := h _ (List.mem_cons_of_mem _ (List.mem_cons_of_mem _
    List.mem_cons_self))
  cases v with
  | none => exact .inl ⟨hmember, hfinds⟩
  | some v =>
    obtain ⟨items, rfl, hwrites⟩ := hfinds
    exact .inr ⟨items, hmember, hwrites⟩

theorem options?_of_finds {c : Config} {strays : List Literal} {members : List (String × Json)}
    (h : Finds (c.fields strays) members) : ∃ v, member? "options" members = some v ∧
      options? v = if strays.all Literal.inRange then some c.options else none := by
  rcases exists_member?_options h with ⟨hmember, hoptions, hstrays⟩ | ⟨items, hmember, hwrites⟩
  · exact ⟨none, hmember, by rw [hoptions, hstrays]; rfl⟩
  · exact ⟨_, hmember, hwrites.mapM_ofJson?_eq⟩

theorem exists_integer_of_finds {c : Config} {strays : List Literal}
    {members : List (String × Json)} (h : Finds (c.fields strays) members) {l : Literal}
    (hl : l ∈ strays) : ∃ negative digits, IsNumeral digits ∧ l = .integer negative digits := by
  rcases exists_member?_options h with ⟨-, -, rfl⟩ | ⟨items, -, hwrites⟩
  · exact absurd hl List.not_mem_nil
  · exact hwrites.exists_integer hl

theorem policy?_of_writes {p : Policy} {v : Option Json} (hnone : v = none → p = .keep)
    (hsome : ∀ w ∈ v, p.Writes w) : policy? v = some p := by
  cases v with
  | none => rw [hnone rfl]; rfl
  | some w => exact (hsome w rfl).ofJson?_eq.1

theorem ofFields?_of_finds {c : Config} {strays : List Literal} {members : List (String × Json)}
    (h : Finds (c.fields strays) members) :
    ofFields? members = if strays.all Literal.inRange then some c else none := by
  obtain ⟨v, hname, hv⟩ := h.optional "name" c.name (by simp [fields])
  obtain ⟨w, hvar, hw⟩ := h.optional "prefix" c.varPrefix (by simp [fields])
  obtain ⟨options, hoptions, hread⟩ := options?_of_finds h
  obtain ⟨p, hpositional, hp, hp'⟩ := h.policy "positional" c.positional (by simp [fields])
  obtain ⟨q, hunmatched, hq, hq'⟩ := h.policy "unmatched" c.unmatched (by simp [fields])
  have hp := policy?_of_writes hp hp'
  have hq := policy?_of_writes hq hq'
  cases hrange : strays.all Literal.inRange <;>
    simp [ofFields?, hname, hv, hvar, hw, hoptions, hread, hpositional, hp, hunmatched, hq, hrange]

theorem length_of_isArrayOf {c : Config} {strays : List Literal} {items : List Json}
    (h : IsArrayOf (c.fields strays) items) :
    2 ≤ items.length ∧ items.length ≤ fieldNames.length := by
  refine ⟨?_, h.length_le⟩
  exact IsArrayOf.le_length [.optional "name" c.name, .optional "prefix" c.varPrefix] _ h
    (by simp)

/-- Either way a configuration is read from its fields. -/
theorem Writes.exists_finds {c : Config} {strays : List Literal} {v : Json}
    (h : c.Writes strays v) :
    ∃ members, Finds (c.fields strays) members ∧ ofJson? v = ofFields? members := by
  cases h with
  | @object others members hobject _ =>
    have hopen : ofJson? (ofMembers members) = (ofMembers members).members?.bind ofFields? := rfl
    exact ⟨members, hobject.finds (c.nodup_fields strays),
      by rw [hopen, members?_ofMembers, Option.bind_some]⟩
  | @array items hitems =>
    have hopen : ofJson? (.array items) =
        if 2 ≤ items.length ∧ items.length ≤ fieldNames.length then
          ofFields? (((c.fields strays).map (·.name)).zip items)
        else none := rfl
    exact ⟨_, hitems.finds (c.mayOmit_of_mayEnd strays) (c.nodup_fields strays),
      by rw [hopen, if_pos (length_of_isArrayOf hitems)]⟩

theorem read?_eq_ite_of_writes {c : Config} {strays : List Literal} {v : Json} {text : String}
    (hwrites : c.Writes strays v) (htext : v.IsTextOf text.toList) :
    read? text = if strays.all Literal.inRange then some c else none := by
  obtain ⟨members, hfinds, hjson⟩ := hwrites.exists_finds
  rw [read?, read?_of_isTextOf htext, Option.bind_some, hjson, ofFields?_of_finds hfinds]

/-- Every text of a configuration is read as the configuration, unless an integer that a
declaration has under an unknown name is out of range. None of at most 300 digits is. -/
theorem read?_of_writes {c : Config} {strays : List Literal} {v : Json} {text : String}
    (hwrites : c.Writes strays v) (htext : v.IsTextOf text.toList) :
    read? text = (if strays.all Literal.inRange then some c else none) ∧
      ((∀ l ∈ strays, l.whole.length ≤ 300) → read? text = some c) := by
  have hread := read?_eq_ite_of_writes hwrites htext
  refine ⟨hread, fun hshort => ?_⟩
  obtain ⟨members, hfinds, -⟩ := hwrites.exists_finds
  have hrange : strays.all Literal.inRange = true := by
    refine List.all_eq_true.mpr fun l hl => ?_
    obtain ⟨negative, digits, hdigits, rfl⟩ := exists_integer_of_finds hfinds hl
    exact inRange_integer negative hdigits.isDigit (hshort _ hl)
  rw [hread, if_pos hrange]

/-- A flag and a declaration that keeps its option. -/
def flagAndKeep : Config := ⟨none, none, [.flag ⟨"v"⟩ none .keep, .keep ⟨"x"⟩], .keep, .keep⟩

/-- The integer that has a one and then as many zeros. -/
def longInteger (zeros : Nat) : Literal := .integer false ('1' :: List.replicate zeros '0')

theorem isNumeral_longInteger (zeros : Nat) : IsNumeral ('1' :: List.replicate zeros '0') := by
  refine ⟨List.cons_ne_nil _ _, fun c hc => ?_, nofun⟩
  rcases List.mem_cons.mp hc with rfl | hc
  · rfl
  · rw [List.eq_of_mem_replicate hc]
    rfl

def keepMembers (zeros : Nat) : List (String × Json) :=
  [("n", .number (longInteger zeros)), ("template", .string (some "x")),
    ("kind", .string (some "keep"))]

def flagAndKeepMembers (zeros : Nat) : List (String × Json) :=
  [("options", .array [.array [.string (some "flag"), .string (some "v"), .null],
    ofMembers (keepMembers zeros)]), ("note", .bool true)]

/-- One of the texts of the two declarations: an array and an object that has its kind last and
the integer under an unknown name. -/
def flagAndKeepText (zeros : Nat) : String :=
  String.ofList (" \x7b\"options\":[ [\"flag\",\"v\",null],\x7b\"n\":1".toList ++
    (List.replicate zeros '0' ++
      ",\"template\":\"\\u0078\",\"kind\":\"keep\"\x7d],\"note\":true\x7d".toList))

theorem writes_flagAndKeep (zeros : Nat) :
    flagAndKeep.Writes [longInteger zeros] (ofMembers (flagAndKeepMembers zeros)) := by
  have hflag : OptionDecl.Writes (.flag ⟨"v"⟩ none .keep) []
      (.array [.string (some "flag"), .string (some "v"), .null]) :=
    .array (.cons rfl (.cons rfl (.nil (by simp))))
  have hkeep : OptionDecl.Writes (.keep ⟨"x"⟩) (numbers [("n", .number (longInteger zeros))])
      (ofMembers (keepMembers zeros)) := by
    refine .object ⟨⟨_, .written rfl (.written rfl .nil), (List.reverse_perm _).symm⟩, ?_⟩ ?_
    · simp [OptionDecl.fields]
    · simpa [longInteger] using IsScalar.integer (isNumeral_longInteger zeros)
  have hoptions : OptionDecl.WritesAll flagAndKeep.options [longInteger zeros] _ :=
    .cons hflag (.cons hkeep .nil)
  have hnote : IsObjectOf (flagAndKeep.fields [longInteger zeros]) [("note", .bool true)]
      (flagAndKeepMembers zeros) := by
    refine ⟨⟨_, .omitted rfl (.omitted rfl (.written ⟨_, rfl, hoptions⟩
      (.omitted rfl (.omitted rfl .nil)))), .refl _⟩, ?_⟩
    simp [fields]
  exact .object hnote (by simpa using IsScalar.bool true)

theorem isTextOf_flagAndKeepText (zeros : Nat) :
    (ofMembers (flagAndKeepMembers zeros)).IsTextOf (flagAndKeepText zeros).toList := by
  have hdigit (n : Nat) (h : n < 16) : IsHexDigit n (Nat.digitChar n) := ⟨h, .inl rfl⟩
  have hunit : SpellsUnit 'x'.toNat ['0', '0', '7', '8'] :=
    .digits (hdigit 0 (by decide)) (hdigit 0 (by decide)) (hdigit 7 (by decide))
      (hdigit 8 (by decide))
  have hx : SpellsText "x".toList _ := .cons (.unit hunit) .nil
  have hplain (s : String) (h : ∀ c ∈ s.toList, ' ' ≤ c ∧ c ≠ '"' ∧ c ≠ '\\') :
      Spells (.string (some s)) ('"' :: s.toList ++ ['"']) := .string (spellsText_self h)
  have hmember (key : String) {v : Json} {text : List Char}
      (h : ∀ c ∈ key.toList, ' ' ≤ c ∧ c ≠ '"' ∧ c ≠ '\\') (hv : Spells v text) :
      SpellsMember (some key, v) ('"' :: key.toList ++ '"' :: ':' :: (text ++ [])) :=
    .tight (spellsText_self h) hv
  have hblank : IsBlank [' '] := by simp [IsBlank]
  have hflag := Spells.array (.more isBlank_nil (hplain "flag" (by simp)) isBlank_nil
    (.more isBlank_nil (hplain "v" (by simp)) isBlank_nil
      (.last isBlank_nil .null isBlank_nil)))
  have hinteger : Spells (.number (longInteger zeros)) _ :=
    .integer (isNumeral_longInteger zeros)
  have hkeep := Spells.object (.more (hmember "n" (by simp) hinteger)
    (.more (hmember "template" (by simp) (.string hx))
      (.last (hmember "kind" (by simp) (hplain "keep" (by simp))))))
  have hoptions := Spells.array (.more hblank hflag isBlank_nil
    (.last isBlank_nil hkeep isBlank_nil))
  have hobject := Spells.object (.more (hmember "options" (by simp) hoptions)
    (.last (hmember "note" (by simp) .true)))
  have htext := IsTextOf.blanks hblank hobject isBlank_nil
  have hlist : (flagAndKeepText zeros).toList = _ := String.toList_ofList
  rw [hlist]
  simp only [String.reduceToList]
  simpa [flagAndKeepMembers, keepMembers, ofMembers] using htext

theorem read?_of_writes_flagAndKeep :
    flagAndKeep.Writes [longInteger 2] (ofMembers (flagAndKeepMembers 2)) ∧
      (ofMembers (flagAndKeepMembers 2)).IsTextOf (flagAndKeepText 2).toList ∧
      read? (flagAndKeepText 2) = some flagAndKeep := by
  refine ⟨writes_flagAndKeep 2, isTextOf_flagAndKeepText 2, ?_⟩
  exact (read?_of_writes (writes_flagAndKeep 2) (isTextOf_flagAndKeepText 2)).2 (by decide)

/-- An integer of 310 digits is out of range, so the text is refused. -/
theorem read?_eq_none_of_writes :
    flagAndKeep.Writes [longInteger 309] (ofMembers (flagAndKeepMembers 309)) ∧
      (ofMembers (flagAndKeepMembers 309)).IsTextOf (flagAndKeepText 309).toList ∧
      read? (flagAndKeepText 309) = none := by
  refine ⟨writes_flagAndKeep 309, isTextOf_flagAndKeepText 309, ?_⟩
  have hrange : [longInteger 309].all Literal.inRange = false := by decide +kernel
  rw [read?_eq_ite_of_writes (writes_flagAndKeep 309) (isTextOf_flagAndKeepText 309), hrange]
  rfl

end Config

end GroupedOptions
