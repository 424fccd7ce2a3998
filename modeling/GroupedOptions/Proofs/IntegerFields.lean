import GroupedOptions.Proofs.Directives
import GroupedOptions.Proofs.Numeral.Spelling

/-!
# Integer fields

A number on its way from a field of a group into the caller's data is held against two ranges: the
64 bits of the conversion, and the type of the field. The main statement is that it arrives as it
is or not at all, so that no number is ever cut off or wrapped around.
-/
namespace GroupedOptions

/-- The integer types of fields, with the smallest and the largest number of each. Those of a
machine word reach as far as its size allows. -/
inductive HoldsBetween : (α : Type) → [BoundedInt α] → ℤ → ℤ → Prop
  | int8 : HoldsBetween Int8 (-2 ^ 7) (2 ^ 7 - 1)
  | int16 : HoldsBetween Int16 (-2 ^ 15) (2 ^ 15 - 1)
  | int32 : HoldsBetween Int32 (-2 ^ 31) (2 ^ 31 - 1)
  | int64 : HoldsBetween Int64 (-2 ^ 63) (2 ^ 63 - 1)
  | isize : HoldsBetween ISize ISize.minValue.toInt ISize.maxValue.toInt
  | uint8 : HoldsBetween UInt8 0 (2 ^ 8 - 1)
  | uint16 : HoldsBetween UInt16 0 (2 ^ 16 - 1)
  | uint32 : HoldsBetween UInt32 0 (2 ^ 32 - 1)
  | uint64 : HoldsBetween UInt64 0 (2 ^ 64 - 1)
  | usize : HoldsBetween USize 0 (USize.size - 1)

variable {D α β : Type} [BoundedInt α] {lo hi z : ℤ} {c : Conversion}

theorem HoldsBetween.bounds (h : HoldsBetween α lo hi) :
    BoundedInt.lo α = lo ∧ BoundedInt.hi α = hi := by
  cases h with
  | isize | usize => exact ⟨rfl, rfl⟩
  | _ => decide

namespace Conversion

theorem fromValue_valueOf (hc : c.isInteger = true) (h : c.InRange z) :
    (fromValue (c.valueOf z) : Except ConvError α) = BoundedInt.ofInt? α z := by
  cases c with
  | signed | detected =>
    have hbounds : -2 ^ 63 ≤ z ∧ z < 2 ^ 63 := h
    have hnumber : (Int64.ofInt z).toInt = z := Int64.toInt_ofInt_of_le hbounds.1 hbounds.2
    exact congrArg (BoundedInt.ofInt? α) hnumber
  | unsigned | octal | hex =>
    have hbounds : 0 ≤ z ∧ z < 2 ^ 64 := h
    have hsize : UInt64.size = 2 ^ 64 := rfl
    have hnumber : ((UInt64.ofNat z.toNat).toNat : ℤ) = z := by
      rw [UInt64.toNat_ofNat_of_lt' (by omega)]
      omega
    exact congrArg (BoundedInt.ofInt? α) hnumber
  | float | char | str => cases hc

/-- The two checks one after the other are one check against both ranges. -/
theorem ofNumber_bind_fromValue (hc : c.isInteger = true) (z : ℤ) :
    (c.ofNumber z >>= fun v => (fromValue v : Except ConvError α)) =
      if c.InRange z ∧ BoundedInt.lo α ≤ z ∧ z ≤ BoundedInt.hi α then .ok (BoundedInt.ofInt z)
      else .error .outOfRange := by
  by_cases hrange : c.InRange z
  · have hvalue : (c.ofNumber z >>= fun v => (fromValue v : Except ConvError α)) =
        fromValue (c.valueOf z) := by
      rw [ofNumber_of_inRange hrange]
      rfl
    rw [hvalue, fromValue_valueOf hc hrange, BoundedInt.ofInt?]
    simp only [hrange, true_and]
  · have hnumber := ofNumber_eq_error_iff.mpr ⟨hrange, rfl⟩
    rw [hnumber, if_neg fun h => hrange h.1]
    rfl

end Conversion

section Row

variable {t : Table D} {row : Row D} {p : Template.Parts} {field : Field D} {fixed : Int64}
  {name spec token value : String}

/-- A group with one field for the only row is one step, which does as the directive says. -/
theorem Table.steps_of_lone_row (ht : t.rows = [row]) (hp : row.templ.HasParts p)
    (hspaced : p.spaced = false) (hname : p.name ≠ []) (hdirective : p.directive ≠ [])
    (hdest : row.dest = .field field fixed) (htoken : token.toList = p.stem ++ value.toList) :
    t.steps .options ["-o", Group.escape token] =
      [row.templ.obey field (String.ofList p.directive) token value] := by
  have hparts := Template.hasParts_iff.mp hp
  have hmatch := Template.match?_of_stem hparts ⟨value.toList, htoken.symm⟩
  have hlookup : t.lookup token = [⟨row, Text.octetCount p.name⟩] := by
    simp [lookup, ht, Row.hit?, hmatch]
  have hawaits : ¬ t.Awaits token := by
    simp [not_awaits_iff, ht, Template.isSpacedName_iff hparts hname, hspaced]
  have hw : (⟨row, Text.octetCount p.name⟩ : Hit D).awaitsValue token = false :=
    Bool.eq_false_iff.mpr fun htrue => hawaits ⟨_, by simp [hlookup], htrue⟩
  have hstep := Row.step_eq_obey hp hmatch hname hdirective hdest .group token
  rw [Template.valuePart_eq hparts htoken, String.ofList_toList] at hstep
  rw [t.steps_group (by decide), Group.fields_escape, t.groupSteps_of_not_awaits hawaits,
    t.itemSteps_of_matched (by simp [hlookup]), hlookup, List.map_singleton,
    Hit.stepWith_of_not_awaitsValue hw, hstep]
  rfl

theorem Template.hasParts_of_equals (hname : '=' ∉ name.toList)
    (hspec : spec.toList.head? = some '%') :
    (⟨name ++ "=" ++ spec⟩ : Template).HasParts ⟨name.toList, false, spec.toList⟩ := by
  refine ⟨?_, hname, by simp, .inr hspec⟩
  simp [Parts.mark]

theorem Conversion.head?_of_parse? (h : Conversion.parse? spec = some c) :
    spec.toList.head? = some '%' := by
  unfold parse? at h
  split at h
  next letters hspec => rw [hspec]; rfl
  next => cases h

theorem Outcome.ofRun_start (data : D) (program : String) :
    ofRun (.ok (Progress.start data program)) = ⟨data, [], .ok (.ofList [program])⟩ := by
  have hdone : (Progress.start data program).assemble = .ok (.ofList [program]) :=
    Progress.assemble_of_separator_none rfl rfl
  rw [ofRun, hdone]
  rfl

theorem Template.obey_of_parse? (h : Conversion.parse? spec = some c) (t : Template)
    (text value : String) : t.obey field spec text value =
      match c.convert value with
      | .ok v => .store field text v
      | .error cause => .fail (.invalidConversion text cause) := by
  cases hv : c.convert value <;> simp only [obey, h, hv]

/-- What the conversion and the type make of a text is stored, and otherwise their error is that of
the parse. -/
theorem parse_of_lone_field [FromValue β] {put : D → β → D} (hname : name ≠ "")
    (hequals : '=' ∉ name.toList) (hspec : Conversion.parse? spec = some c)
    (ht : t.rows = [.forField (name ++ "=" ++ spec) (.of put)])
    {callback : Option (Callback D)} {data : D} {program text : String} {args : ArgVec}
    (hargs : args.toList = [program, "-o", Group.escape (name ++ "=" ++ text)]) :
    parse t callback data args =
      match c.convert text >>= fun v => (fromValue v : Except ConvError β) with
      | .ok x => ⟨put data x, [], .ok (.ofList [program])⟩
      | .error cause => ⟨data, [], .error (.invalidConversion (name ++ "=" ++ text) cause)⟩ := by
  have hhead := Conversion.head?_of_parse? hspec
  have hdirective : spec.toList ≠ [] := by
    intro hnil
    simp [hnil] at hhead
  have htext : (name ++ "=" ++ text).toList = (name.toList ++ ['=']) ++ text.toList := by simp
  have hsteps := Table.steps_of_lone_row ht (Template.hasParts_of_equals hequals hhead) rfl
    (by simpa using hname) hdirective rfl htext
  rw [String.ofList_toList] at hsteps
  rw [parse_eq_ofRun hargs, hsteps, Progress.run_singleton, Template.obey_of_parse? hspec]
  cases c.convert text with
  | error cause => rfl
  | ok v =>
    have hbind : (Except.ok v >>= fun v => (fromValue v : Except ConvError β)) = fromValue v := rfl
    rw [hbind]
    simp only [Progress.take, Field.of]
    cases (fromValue v : Except ConvError β) with
    | error cause => rfl
    | ok x => exact Outcome.ofRun_start (put data x) program

/-- A number in decimal digits arrives in a field of an integer type as it is, if it is within the
range of the conversion and that of the type. Otherwise it is out of range, the error names the
field of the group, and the data stays unchanged. -/
theorem parse_of_integer_field (hα : HoldsBetween α lo hi) {put : D → α → D} (hname : name ≠ "")
    (hequals : '=' ∉ name.toList) (hc : spec = "%d" ∧ c = .signed ∨ spec = "%u" ∧ c = .unsigned)
    (ht : t.rows = [.forField (name ++ "=" ++ spec) (.of put)]) {digits : String} {n : ℕ}
    (hn : Numeral.Denotes 10 digits.toList n) (callback : Option (Callback D)) (data : D)
    {program : String} {args : ArgVec}
    (hargs : args.toList = [program, "-o", Group.escape (name ++ "=" ++ digits)]) :
    (c.InRange n ∧ lo ≤ n ∧ n ≤ hi → ∃ x : α, BoundedInt.toInt x = n ∧
      parse t callback data args = ⟨put data x, [], .ok (.ofList [program])⟩) ∧
    (¬ (c.InRange n ∧ lo ≤ n ∧ n ≤ hi) → parse t callback data args =
      ⟨data, [], .error (.invalidConversion (name ++ "=" ++ digits) .outOfRange)⟩) := by
  have hspec : Conversion.parse? spec = some c := by
    rcases hc with ⟨rfl, rfl⟩ | ⟨rfl, rfl⟩ <;> decide
  have hinteger : c.isInteger = true := by
    rcases hc with ⟨_, rfl⟩ | ⟨_, rfl⟩ <;> rfl
  have hspells : c.Spells digits.toList n := by
    rcases hc with ⟨_, rfl⟩ | ⟨_, rfl⟩
    · exact .signed (.digits hn)
    · exact .unsigned (.digits hn)
  obtain ⟨hlo, hhi⟩ := hα.bounds
  rw [parse_of_lone_field hname hequals hspec ht hargs,
    Conversion.convert_of_spells hinteger hspells, Conversion.ofNumber_bind_fromValue hinteger,
    hlo, hhi]
  constructor
  · intro h
    rw [if_pos h]
    refine ⟨BoundedInt.ofInt n, BoundedInt.toInt_ofInt _ ?_ ?_, rfl⟩
    · rw [hlo]
      exact h.2.1
    · rw [hhi]
      exact h.2.2
  · intro h
    rw [if_neg h]

theorem parse_of_integer_field_uint8 :
    let t : Table UInt8 := Table.empty.addField "n=%d" (.of fun _ x => x)
    parse t none 7 (.ofList ["prog", "-o", "n=0255"]) = ⟨255, [], .ok (.ofList ["prog"])⟩ ∧
      parse t none 7 (.ofList ["prog", "-o", "n=0256"]) =
        ⟨7, [], .error (.invalidConversion "n=0256" .outOfRange)⟩ := by
  intro t
  have hlast : Numeral.Denotes 10 "0255".toList 255 :=
    Numeral.denotes_of_magnitude (by decide) (show Numeral.magnitude 10 255 _ = _ from rfl)
  have hnext : Numeral.Denotes 10 "0256".toList 256 :=
    Numeral.denotes_of_magnitude (by decide) (show Numeral.magnitude 10 256 _ = _ from rfl)
  have hargs (digits : String) :
      (ArgVec.ofList ["prog", "-o", Group.escape ("n" ++ "=" ++ digits)]).toList =
        ["prog", "-o", Group.escape ("n" ++ "=" ++ digits)] := rfl
  have hparse {digits : String} {n : ℕ} (hn : Numeral.Denotes 10 digits.toList n) :=
    parse_of_integer_field (t := t) .uint8 (show "n" ≠ "" by decide) (by decide)
      (.inl ⟨rfl, rfl⟩) rfl hn none 7 (hargs digits)
  constructor
  · obtain ⟨x, hx, hstored⟩ := (hparse hlast).1 (by decide)
    have hvalue : x.toNat = 255 := Int.ofNat_inj.mp hx
    obtain rfl : x = 255 := UInt8.toNat_inj.mp hvalue
    exact hstored
  · exact (hparse hnext).2 (by decide)

end Row

end GroupedOptions
