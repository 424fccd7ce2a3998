import GroupedOptions.Proofs.Consumption
import GroupedOptions.Proofs.Template.Separator

/-!
# Directives

A field row whose template has a name and a directive does with every token that it matches as the
directive says, and its fixed value has no part in any parse. A template with nothing before its
separator has no value part, so a row with such a template stores its fixed value.
-/
namespace GroupedOptions

variable {D : Type} {callback : Option (Callback D)}

/-- What a directive makes of a value: it is stored, or the conversion fails and the error names
the text, or there is no such conversion. -/
def Template.obey (t : Template) (field : Field D) (directive text value : String) : Step D :=
  match Conversion.parse? directive with
  | none => .fail (.badTemplate t)
  | some c =>
      match c.convert value with
      | .ok v => .store field text v
      | .error cause => .fail (.invalidConversion text cause)

namespace Template

variable {t : Template} {p : Parts} {token : String} {sep : Nat}

theorem conversion?_octetCount (hp : t.HasParts p) (hname : p.name ≠ [])
    (hdirective : p.directive ≠ []) :
    t.conversion? (Text.octetCount p.name) = some (String.ofList p.directive) := by
  have hpos : Text.octetCount p.name ≠ 0 := fun hzero => hname (Text.octetCount_eq_zero hzero)
  have hmark : Text.octetCount p.name + 1 = Text.octetCount (p.name ++ [p.mark]) := by
    rw [Text.octetCount_append]
    cases hs : p.spaced <;> simp [Parts.mark, hs, Char.utf8Size]
  have hdrop : Text.dropOctets (Text.octetCount p.name + 1) t.text.toList = some p.directive := by
    rw [hp.text_eq, List.append_cons, hmark]
    exact Text.dropOctets_octetCount _ _
  simp [conversion?, hpos, hdrop, hdirective]

end Template

section Row

variable {row : Row D} {p : Template.Parts} {token : String} {sep : Nat} {field : Field D}
  {fixed : Int64}

theorem Template.HasParts.sep_eq {t : Template} (hp : t.HasParts p)
    (hmatch : t.match? token = some sep) : sep = Text.octetCount p.name :=
  ((match?_eq_some_iff (hasParts_iff.mp hp)).mp hmatch).2

/-- The fixed value is not looked at where there is a directive. -/
theorem Row.step_eq_obey (hp : row.templ.HasParts p) (hmatch : row.templ.match? token = some sep)
    (hname : p.name ≠ []) (hdirective : p.directive ≠ []) (hdest : row.dest = .field field fixed)
    (place : Place) (text : String) : (⟨row, sep⟩ : Hit D).step place text =
      row.templ.obey field (String.ofList p.directive) text (row.templ.valuePart sep text) := by
  have hconversion : row.templ.conversion? sep = some (String.ofList p.directive) := by
    rw [hp.sep_eq hmatch]
    exact Template.conversion?_octetCount hp hname hdirective
  unfold Hit.step Hit.stored Template.obey
  simp only [hdest, hconversion]
  cases Conversion.parse? (String.ofList p.directive) with
  | none => rfl
  | some c =>
    simp only
    cases c.convert (row.templ.valuePart sep text) <;> rfl

/-- A match with nothing before the separator stores the fixed value. -/
theorem Row.step_eq_store (hp : row.templ.HasParts p) (hmatch : row.templ.match? token = some sep)
    (hname : p.name = []) (hdest : row.dest = .field field fixed) (place : Place)
    (text : String) : (⟨row, sep⟩ : Hit D).step place text = .store field text (.int fixed) := by
  have hsep : sep = 0 := by
    rw [hp.sep_eq hmatch, hname]
    rfl
  simp [Hit.step, Hit.stored, hdest, hsep, Template.conversion?_zero]

end Row

namespace Progress

/-- The turn of a field row with the parts of a template: under the bare name of a spaced template
it takes the value for itself and the rows after it, and otherwise the value follows the stem. -/
def takeDirected (callback : Option (Callback D)) (templ : Template) (p : Template.Parts)
    (field : Field D) (token : String) (s : Progress D) (pending : Option String)
    (rest : List String) : Except (Failure D) (Progress D × Option String × List String) :=
  let obey := templ.obey field (String.ofList p.directive)
  if p.spaced ∧ p.name = token.toList then
    match pendingOrNext? pending rest with
    | none => .error ⟨s.data, s.calls, .missingArgument token⟩
    | some (value, rest) =>
        (s.take callback (obey (token ++ value) value)).map (·, some value, rest)
  else
    let value := String.ofList (token.toList.drop p.stem.length)
    (s.take callback (obey token value)).map (·, pending, rest)

section Row

variable {row : Row D} {p : Template.Parts} {token : String} {sep : Nat} {field : Field D}
  {fixed : Int64}

theorem takeRows_of_directive (hp : row.templ.HasParts p)
    (hmatch : row.templ.match? token = some sep) (hname : p.name ≠ [])
    (hdirective : p.directive ≠ []) (hdest : row.dest = .field field fixed) (place : Place)
    (s : Progress D) (pending : Option String) (rest : List String) (hits : List (Hit D)) :
    s.takeRows callback place token pending rest (⟨row, sep⟩ :: hits) =
      (s.takeDirected callback row.templ p field token pending rest).bind
        fun (s, pending, rest) => s.takeRows callback place token pending rest hits := by
  have hparts := Template.hasParts_iff.mp hp
  have hawaits : (⟨row, sep⟩ : Hit D).awaitsValue token = true ↔ row.templ.IsSpacedName token :=
    Hit.awaitsValue_iff hmatch
  have hbare := hawaits.trans (Template.isSpacedName_iff hparts hname)
  have hstep (text value : String) (htext : text.toList = p.stem ++ value.toList) :
      (⟨row, sep⟩ : Hit D).step place text =
        row.templ.obey field (String.ofList p.directive) text value := by
    rw [Row.step_eq_obey hp hmatch hname hdirective hdest, hp.sep_eq hmatch,
      Template.valuePart_eq hparts htext, String.ofList_toList]
  rw [takeRows, takeDirected]
  -- Either the value is a token of its own, or it follows the stem.
  by_cases hw : p.spaced = true ∧ p.name = token.toList
  · rw [if_pos (hbare.mpr hw), if_pos hw]
    cases pendingOrNext? pending rest with
    | none => rfl
    | some left =>
      obtain ⟨value, rest'⟩ := left
      have htext : (token ++ value).toList = p.stem ++ value.toList := by
        simp [Template.Parts.stem, hw.1, hw.2]
      simp only [hstep _ _ htext]
      cases s.take callback
        (row.templ.obey field (String.ofList p.directive) (token ++ value) value) <;> rfl
  · rw [if_neg (mt hbare.mp hw), if_neg hw]
    obtain ⟨value, hvalue⟩ := ((Template.match?_eq_some_iff hparts).mp hmatch).1
    have hdrop : token.toList.drop p.stem.length = value := by rw [← hvalue, List.drop_left]
    have htext : token.toList = p.stem ++ (String.ofList value).toList := by
      rw [String.toList_ofList, hvalue]
    simp only [hstep _ _ htext, hdrop]
    cases s.take callback
      (row.templ.obey field (String.ofList p.directive) token (String.ofList value)) <;> rfl

theorem takeRows_of_name_eq_nil (hp : row.templ.HasParts p)
    (hmatch : row.templ.match? token = some sep) (hname : p.name = [])
    (hdest : row.dest = .field field fixed) (place : Place) (s : Progress D)
    (pending : Option String) (rest : List String) (hits : List (Hit D)) :
    s.takeRows callback place token pending rest (⟨row, sep⟩ :: hits) =
      (s.take callback (.store field token (.int fixed))).bind
        fun s => s.takeRows callback place token pending rest hits := by
  have hsep : sep = 0 := by
    rw [hp.sep_eq hmatch, hname]
    rfl
  have hawaits : (⟨row, sep⟩ : Hit D).awaitsValue token = false := by
    simp [Hit.awaitsValue, Template.isSpaced, hsep]
  rw [takeRows, if_neg (by simp [hawaits]), Row.step_eq_store hp hmatch hname hdest]

end Row

end Progress

/-- Rows that do the same with a token. -/
def Hit.ActsAlike (token : String) (hit hit' : Hit D) : Prop :=
  hit.awaitsValue token = hit'.awaitsValue token ∧
    ∀ place text, hit.step place text = hit'.step place text

namespace Progress

variable {t t' : Table D}

theorem takeRows_congr {token : String} {hits hits' : List (Hit D)}
    (h : List.Forall₂ (Hit.ActsAlike token) hits hits')
    (place : Place) (s : Progress D) (pending : Option String) (rest : List String) :
    s.takeRows callback place token pending rest hits =
      s.takeRows callback place token pending rest hits' := by
  induction h generalizing s pending rest with
  | nil => rfl
  | cons hsame _ ih =>
    simp only [takeRows, hsame.1, hsame.2, ih]

theorem takeFields_congr (h : ∀ (s : Progress D) place token rest,
      s.takeOption callback t place token rest = s.takeOption callback t' place token rest)
    (s : Progress D) (rest : List String) (fields : List (Except Group.DecodeError String)) :
    s.takeFields callback t rest fields = s.takeFields callback t' rest fields := by
  induction fields generalizing s rest with
  | nil => rfl
  | cons first fields ih =>
    cases first with
    | error e => rfl
    | ok field => simp only [takeFields, h, ih]

/-- A loop depends on the table by what the options do. -/
theorem takeAll_congr (h : ∀ (s : Progress D) place token rest,
      s.takeOption callback t place token rest = s.takeOption callback t' place token rest)
    (s : Progress D) (tokens : List String) :
    s.takeAll callback t tokens = s.takeAll callback t' tokens := by
  have htoken (s : Progress D) (token : String) (rest : List String) :
      s.takeToken callback t token rest = s.takeToken callback t' token rest := by
    simp only [takeToken, h, takeFields_congr h]
  induction hn : tokens.length using Nat.strong_induction_on generalizing s tokens with
  | _ n ih =>
    cases tokens with
    | nil => simp only [takeAll]
    | cons token rest =>
      rw [takeAll_cons, takeAll_cons, ← htoken]
      cases htake : s.takeToken callback t token rest with
      | error failure => rfl
      | ok left =>
        have hlength := (suffix_of_takeToken htake).length_le
        rw [List.length_cons] at hn
        exact ih left.2.length (by omega) left.1 left.2 rfl

theorem takeOption_congr {token : String}
    (h : List.Forall₂ (Hit.ActsAlike token) (t.lookup token) (t'.lookup token))
    (place : Place) (s : Progress D) (rest : List String) :
    s.takeOption callback t place token rest = s.takeOption callback t' place token rest := by
  unfold takeOption
  generalize t.lookup token = hits at h
  generalize t'.lookup token = hits' at h
  cases h with
  | nil => rfl
  | cons hsame hrest => exact takeRows_congr (.cons hsame hrest) place s none rest

end Progress

namespace Table

variable {t t' : Table D} {row row' : Row D} {token : String}

theorem forall₂_lookup {before after : List (Row D)} (hrows : t.rows = before ++ row :: after)
    (hrows' : t'.rows = before ++ row' :: after) (htempl : row'.templ = row.templ)
    {R : Hit D → Hit D → Prop} (hrefl : ∀ hit, R hit hit)
    (hrow : ∀ sep, row.templ.match? token = some sep → R ⟨row, sep⟩ ⟨row', sep⟩) :
    List.Forall₂ R (t.lookup token) (t'.lookup token) := by
  have hsame (hits : List (Hit D)) : List.Forall₂ R hits hits :=
    List.forall₂_same.mpr fun hit _ => hrefl hit
  simp only [lookup, hrows, hrows', List.filterMap_append, List.filterMap_cons, Row.hit?, htempl]
  cases hmatch : row.templ.match? token with
  | none => exact List.rel_append (hsame _) (hsame _)
  | some sep => exact List.rel_append (hsame _) (.cons (hrow sep hmatch) (hsame _))

theorem exists_hit_iff {p : Template.Parts} (hrow : row ∈ t.rows) (hp : row.templ.HasParts p) :
    (∃ sep, ⟨row, sep⟩ ∈ t.lookup token) ↔ p.stem <+: token.toList := by
  have hparts := Template.hasParts_iff.mp hp
  simp [t.mem_lookup, hrow, Template.match?_eq_some_iff hparts]

end Table

/-- A directive leaves the fixed value of its row without any part in a parse. -/
theorem parse_eq_of_directive {t t' : Table D} {row : Row D} {p : Template.Parts}
    {field : Field D} {fixed fixed' : Int64} (hp : row.templ.HasParts p) (hname : p.name ≠ [])
    (hdirective : p.directive ≠ []) (hdest : row.dest = .field field fixed)
    {before after : List (Row D)} (hrows : t.rows = before ++ row :: after)
    (hrows' : t'.rows = before ++ ⟨row.templ, .field field fixed'⟩ :: after)
    (callback : Option (Callback D)) (data : D) (args : ArgVec) :
    parse t callback data args = parse t' callback data args := by
  let row' : Row D := ⟨row.templ, .field field fixed'⟩
  have hsame (token : String) (sep : Nat) (hmatch : row.templ.match? token = some sep)
      (place : Place) (text : String) :
      (⟨row, sep⟩ : Hit D).step place text = (⟨row', sep⟩ : Hit D).step place text := by
    have hp' : row'.templ.HasParts p := hp
    rw [Row.step_eq_obey hp hmatch hname hdirective hdest,
      Row.step_eq_obey hp' hmatch hname hdirective rfl]
  cases hargs : args.toList with
  | nil => simp only [parse, hargs]
  | cons program tokens =>
    rw [parse_eq_ofRun hargs, parse_eq_ofRun hargs, ← Progress.takeAll_eq_run rfl,
      ← Progress.takeAll_eq_run rfl]
    congr 1
    apply Progress.takeAll_congr
    intro s place token rest
    apply Progress.takeOption_congr
    apply Table.forall₂_lookup hrows hrows' rfl
    · exact fun hit => ⟨rfl, fun _ _ => rfl⟩
    · exact fun sep hmatch => ⟨rfl, hsame token sep hmatch⟩

/-- A parse is a loop in which every row that matches an option has its turn. The turn of a field
row obeys the directive of its template, and the fixed value of the row has no part in the parse,
unless nothing stands before the separator: then it stores the fixed value. -/
theorem parse_honours_directive {t : Table D} {row : Row D} {p : Template.Parts} {field : Field D}
    {fixed : Int64} (hrow : row ∈ t.rows) (hdest : row.dest = .field field fixed)
    (hp : row.templ.HasParts p) :
    (∀ callback data args program tokens, args.toList = program :: tokens →
      parse t callback data args =
        .ofRun ((Progress.start data program).takeAll callback t tokens)) ∧
    (∀ token, (∃ sep, ⟨row, sep⟩ ∈ t.lookup token) ↔ p.stem <+: token.toList) ∧
    (p.name ≠ [] → p.directive ≠ [] →
      (∀ token sep, ⟨row, sep⟩ ∈ t.lookup token →
        ∀ callback place (s : Progress D) pending rest hits,
          s.takeRows callback place token pending rest (⟨row, sep⟩ :: hits) =
            (s.takeDirected callback row.templ p field token pending rest).bind
              fun (s, pending, rest) => s.takeRows callback place token pending rest hits) ∧
      ∀ (t' : Table D) fixed' before after, t.rows = before ++ row :: after →
        t'.rows = before ++ ⟨row.templ, .field field fixed'⟩ :: after →
        ∀ callback data args, parse t callback data args = parse t' callback data args) ∧
    (p.name = [] → ∀ token sep, ⟨row, sep⟩ ∈ t.lookup token →
      ∀ callback place (s : Progress D) pending rest hits,
        s.takeRows callback place token pending rest (⟨row, sep⟩ :: hits) =
          (s.take callback (.store field token (.int fixed))).bind
            fun s => s.takeRows callback place token pending rest hits) := by
  refine ⟨?_, fun token => t.exists_hit_iff hrow hp, ?_, ?_⟩
  · intro callback data args program tokens hargs
    rw [parse_eq_ofRun hargs, ← Progress.takeAll_eq_run rfl]
  · intro hname hdirective
    constructor
    · intro token sep hmem callback place s pending rest hits
      exact Progress.takeRows_of_directive hp (t.mem_lookup.mp hmem).2 hname hdirective hdest place
        s pending rest hits
    · intro t' fixed' before after hrows hrows' callback data args
      exact parse_eq_of_directive hp hname hdirective hdest hrows hrows' callback data args
  · intro hname token sep hmem callback place s pending rest hits
    exact Progress.takeRows_of_name_eq_nil hp (t.mem_lookup.mp hmem).2 hname hdest place s pending
      rest hits

theorem parse_honours_directive_number :
    let size : Field (Option Int64) := .of fun _ x => some x
    let row : Row (Option Int64) := .forValue "-n=%d" size 7
    let args := ArgVec.ofList ["prog", "-n=5"]
    parse (Table.empty.append row) none none args = ⟨some 5, [], .ok (.ofList ["prog"])⟩ ∧
      parse (Table.empty.append row) none none args =
        parse (Table.empty.addValue "-n=%d" size 9) none none args := by
  intro size row args
  let p : Template.Parts := ⟨['-', 'n'], false, ['%', 'd']⟩
  have hp : row.templ.HasParts p := Template.hasParts_iff.mpr (by decide)
  have hrow : row ∈ (Table.empty.append row).rows := by simp [Table.append]
  have hdirected := (parse_honours_directive hrow rfl hp).2.2.1 (by decide) (by decide)
  have hfixed := hdirected.2 (Table.empty.addValue "-n=%d" size 9) 9 [] [] rfl rfl none none args
  exact ⟨by cbv, hfixed⟩

/-- Where nothing stands before the separator, the fixed value is stored in spite of a directive. -/
theorem parse_stores_fixed_of_directive :
    let size : Field (Option Int64) := .of fun _ x => some x
    let row : Row (Option Int64) := .forValue "=%d" size 7
    let p : Template.Parts := ⟨[], false, ['%', 'd']⟩
    row.templ.HasParts p ∧ p.stem <+: "=5".toList ∧
      parse (Table.empty.append row) none none (.ofList ["prog", "-o", "=5"]) =
        ⟨some 7, [], .ok (.ofList ["prog"])⟩ := by
  intro size row p
  exact ⟨Template.hasParts_iff.mpr (by decide), by decide, by cbv⟩

end GroupedOptions
