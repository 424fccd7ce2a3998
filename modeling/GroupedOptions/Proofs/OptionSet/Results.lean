import GroupedOptions.Proofs.Config.Compiled
import GroupedOptions.Proofs.OptionSet.Recording
import GroupedOptions.Proofs.Reading

/-!
# Results of an option set

A parse that succeeds has a reading, and every declaration whose name no other declaration uses
finds its result in it: a flag how many options it matched, and the others what the last option that
they matched says. An item changes what is recorded under the names of the declarations that match
it and nothing else, and the results of a whole vector follow item by item.
-/
namespace GroupedOptions

namespace Item

def positional? : Item → Option String
  | .positional token => some token
  | .option _ _ _ => none

/-- The option token of an item, without a value that came after it. -/
def option? : Item → Option String
  | .positional _ => none
  | .option _ token _ => some token

end Item

namespace Template

def matchesItem (t : Template) (item : Item) : Bool :=
  item.option?.any fun token => (t.match? token).isSome

theorem matchesItem_option (t : Template) (place : Place) (token : String)
    (next : Option String) :
    t.matchesItem (.option place token next) = (t.match? token).isSome := rfl

def valueOf (t : Template) : Item → String
  | .positional _ => ""
  | .option _ token next => t.value token next

end Template

/-- `d.Records items recorded`: what is recorded under the name of a declaration after these items,
where no other declaration has that name. -/
def OptionDecl.Records (d : OptionDecl) (items : List Item) (recorded : Option Value) : Prop :=
  match d with
  | .flag t _ _ =>
      let count := items.countP t.matchesItem
      count < UInt64.size ∧ recorded = if count = 0 then none else some (.uint (.ofNat count))
  | .set t _ v => recorded = if items.any t.matchesItem then some (.int v) else none
  | .toggle t _ =>
      let name := Table.toggleName t.text
      recorded = ((items.filterMap Item.option?).filter fun token =>
        token = name ∨ token = "no" ++ name).getLast?.map fun token =>
          .int (if token = name then 1 else 0)
  | .value t _ => ∃ conversion, conversion? t = some conversion ∧
      recorded.map Except.ok =
        (items.filter t.matchesItem).getLast?.map fun item => conversion.convert (t.valueOf item)
  | .keep _ | .discard _ => recorded = none

/-- `m.Reflects decls items operands`: what a parse with these declarations recorded is what its
reading says. -/
structure Matches.Reflects (m : Matches) (decls : List OptionDecl) (items : List Item)
    (operands : Option (List String)) : Prop where
  values : ∀ d name, decls.filter (fun d => d.name? = some name) = [d] →
    d.Records items (m.get? name)
  names : ∀ name, (m.get? name).isSome → ∃ d ∈ decls, d.name? = some name
  positionals : m.positionals = items.filterMap Item.positional? ++ operands.getD []

namespace OptionSet

variable {s : OptionSet} {entries : List (OptionDecl × Key)}

/-- The rows and flags of a set are those of valid declarations, and every flag has a key of its
own. -/
structure Represents (s : OptionSet) (entries : List (OptionDecl × Key)) : Prop extends
    s.Consists entries where
  valid : ∀ e ∈ entries, ∃ index, e.1.fault? index = none
  isFree : ∀ e ∈ s.flags, e.1.IsFree
  nodup : (s.flags.map Prod.fst).Nodup

/-- What a step records, where it does not end the parse. -/
def noteStep (s : OptionSet) (m : Matches) : Step Matches → Matches
  | .offer key _ token => if key = .discard ∨ key = .keep then m else (s.note m key token).getD m
  | .store field _ v => (field.store m v).1
  | .separator | .fail _ => m

theorem recordStep_eq_ok {m m' : Matches} {step : Step Matches} (h : s.recordStep m step = .ok m') :
    m' = s.noteStep m step ∧ ∀ e, step ≠ .fail e := by
  cases step with
  | offer key place token =>
    simp only [recordStep] at h
    simp only [noteStep]
    split
    next hkey =>
      rw [if_pos hkey] at h
      cases h
      simp
    next hkey =>
      rw [if_neg hkey] at h
      cases hnote : s.note m key token with
      | none => simp [hnote] at h
      | some noted =>
        rw [hnote] at h
        cases hv : s.verdict key token with
        | ok _ =>
          rw [hv] at h
          cases h
          simp
        | error _ =>
          rw [hv] at h
          cases h
  | store field token v =>
    simp only [recordStep] at h
    simp only [noteStep]
    cases hstore : field.store m v with
    | mk m'' error =>
      rw [hstore] at h
      cases error with
      | none =>
        cases h
        simp
      | some _ => cases h
  | separator =>
    cases h
    simp [noteStep]
  | fail e => cases h

theorem foldlM_eq_ok {m m' : Matches} {steps : List (Step Matches)}
    (h : steps.foldlM s.recordStep m = .ok m') :
    m' = steps.foldl s.noteStep m ∧ ∀ e, .fail e ∉ steps := by
  induction steps generalizing m with
  | nil =>
    cases h
    simp
  | cons step steps ih =>
    rw [List.foldlM_cons] at h
    cases hstep : s.recordStep m step with
    | error e =>
      rw [hstep] at h
      cases h
    | ok next =>
      rw [hstep] at h
      obtain ⟨rfl, hfail⟩ := recordStep_eq_ok hstep
      obtain ⟨hrest, hfails⟩ := ih h
      refine ⟨hrest, fun e he => ?_⟩
      rcases List.mem_cons.mp he with he | he
      · exact hfail e he.symm
      · exact hfails e he

theorem exists_of_foldlM_append {m m' : Matches} {before after : List (Step Matches)}
    (h : (before ++ after).foldlM s.recordStep m = .ok m') :
    ∃ m₁, before.foldlM s.recordStep m = .ok m₁ ∧ after.foldlM s.recordStep m₁ = .ok m' := by
  rw [List.foldlM_append] at h
  cases hbefore : before.foldlM s.recordStep m with
  | error e =>
    rw [hbefore] at h
    cases h
  | ok m₁ =>
    rw [hbefore] at h
    exact ⟨m₁, rfl, h⟩

/-- What is recorded once a flag has been counted under the name; a count that would overflow stays
as it is. -/
def noteCount (m : Matches) (name : String) : Matches :=
  ((nextCount? m name).map fun count => m.record name (.uint count)).getD m

theorem noteCount_cases (m : Matches) (name : String) :
    (nextCount? m name = none ∧ noteCount m name = m) ∨
      ∃ count, nextCount? m name = some count ∧ noteCount m name = m.record name (.uint count) := by
  unfold noteCount
  cases nextCount? m name with
  | none => exact .inl ⟨rfl, rfl⟩
  | some count => exact .inr ⟨count, rfl, rfl⟩

def noteRow (s : OptionSet) (place : Place) (token : String) (next : Option String) (m : Matches)
    (row : Row Matches) : Matches :=
  match row.hit? token with
  | some hit => s.noteStep m (hit.stepWith place token (next.getD ""))
  | none => m

def noteDecl (s : OptionSet) (place : Place) (token : String) (next : Option String) (m : Matches)
    (e : OptionDecl × Key) : Matches :=
  (e.1.rows e.2).foldl (s.noteRow place token next) m

section Declaration

variable {e : OptionDecl × Key} {row : Row Matches} {place : Place} {token : String}
  {next : Option String} {m : Matches} {name : String} {items : List Item}

theorem Represents.lookup_flag (hs : s.Represents entries) (he : e ∈ entries) {key : Key}
    {flag : Flag} (hflag : e.1.flag? e.2 = some (key, flag)) :
    s.flags.lookup key = some flag ∧ key.IsFree := by
  have hmem : (key, flag) ∈ s.flags := by
    rw [hs.flags]
    exact List.mem_filterMap.mpr ⟨e, he, hflag⟩
  exact ⟨lookup_eq_some_of_mem hs.nodup hmem, hs.isFree _ hmem⟩

theorem noteStep_offer_of_lookup {key : Key} {flag : Flag} (hfree : key.IsFree)
    (hlookup : s.flags.lookup key = some flag) (m : Matches) (place : Place) (text : String) :
    s.noteStep m (.offer key place text) = noteCount m flag.name := by
  have hkey := hfree.not_discard_or_keep
  obtain ⟨hunmatched, hpositional, _, _⟩ := hfree
  simp only [noteStep, if_neg hkey, note, if_neg hpositional, if_neg hunmatched, hlookup,
    noteCount]

/-- A flag is counted, and then its policy has its say. -/
theorem recordStep_offer_of_lookup {key : Key} {flag : Flag} (hfree : key.IsFree)
    (hlookup : s.flags.lookup key = some flag) (m : Matches) (place : Place) (text : String) :
    s.recordStep m (.offer key place text) =
      match nextCount? m flag.name, s.verdict key text with
      | none, _ => .error (.callback .overflow)
      | some count, .ok _ => .ok (m.record flag.name (.uint count))
      | some _, .error cause => .error (.callback cause) := by
  have hkey := hfree.not_discard_or_keep
  obtain ⟨hunmatched, hpositional, _, _⟩ := hfree
  simp only [recordStep, if_neg hkey, note, if_neg hpositional, if_neg hunmatched, hlookup]
  cases nextCount? m flag.name <;> cases s.verdict key text <;> rfl

theorem noteRow_of_key {key : Key} {flag : Flag} (hfree : key.IsFree)
    (hlookup : s.flags.lookup key = some flag) (hdest : row.dest = .key key) :
    s.noteRow place token next m row =
      if (row.templ.match? token).isSome then noteCount m flag.name else m := by
  unfold noteRow
  cases hhit : row.hit? token with
  | none => simp [Option.map_eq_none_iff.mp hhit]
  | some hit =>
    obtain ⟨hmatch, rfl⟩ := Row.hit?_eq_some.mp hhit
    simp only [Hit.stepWith_of_key hdest, noteStep_offer_of_lookup hfree hlookup, hmatch]
    rfl

theorem noteRow_of_directive?_eq_none (hdirective : OptionDecl.directive? row.templ = none)
    {fixed : Int64} (hdest : row.dest = .field (Matches.field name) fixed) :
    s.noteRow place token next m row =
      if (row.templ.match? token).isSome then m.record name (.int fixed) else m := by
  unfold noteRow
  cases hhit : row.hit? token with
  | none => simp [Option.map_eq_none_iff.mp hhit]
  | some hit =>
    obtain ⟨hmatch, rfl⟩ := Row.hit?_eq_some.mp hhit
    simp only [Hit.stepWith_of_directive?_eq_none hmatch hdirective hdest, hmatch]
    rfl

/-- Without a separator there is no directive, and the token is all of the template. -/
theorem noteRow_of_parts?_eq_none {text : String} (hparts : Template.parts? ⟨text⟩ = none)
    {fixed : Int64} :
    s.noteRow place token next m ⟨⟨text⟩, .field (Matches.field name) fixed⟩ =
      if token = text then m.record name (.int fixed) else m := by
  let row : Row Matches := ⟨⟨text⟩, .field (Matches.field name) fixed⟩
  have hdirective : OptionDecl.directive? row.templ = none :=
    OptionDecl.directive?_eq_none_of_parts? hparts
  have hnote : s.noteRow place token next m row =
      if (Template.match? ⟨text⟩ token).isSome then m.record name (.int fixed) else m :=
    noteRow_of_directive?_eq_none hdirective rfl
  rw [hnote, Template.match?_of_parts?_eq_none hparts]
  by_cases htoken : token = text
  · simp [htoken]
  · simp [htoken, Ne.symm htoken]

/-- A conversion that fails ends the parse, so it records nothing. -/
theorem noteRow_of_conversion? {c : Conversion}
    (hconversion : OptionDecl.conversion? row.templ = some c) {fixed : Int64}
    (hdest : row.dest = .field (Matches.field name) fixed) :
    s.noteRow place token next m row =
      match row.templ.match? token, c.convert (row.templ.value token next) with
      | some _, .ok v => m.record name v
      | _, _ => m := by
  unfold noteRow
  cases hhit : row.hit? token with
  | none => simp [Option.map_eq_none_iff.mp hhit]
  | some hit =>
    obtain ⟨hmatch, rfl⟩ := Row.hit?_eq_some.mp hhit
    simp only [Hit.stepWith_of_conversion? hmatch hconversion hdest, hmatch]
    cases c.convert (hit.row.templ.value token next) <;> rfl

/-- A row records under the name of its declaration or not at all. -/
theorem Represents.noteRow_cases (hs : s.Represents entries) (he : e ∈ entries)
    (hrow : row ∈ e.1.rows e.2) (place : Place) (token : String) (next : Option String)
    (m : Matches) :
    s.noteRow place token next m row = m ∨
      ∃ name v, e.1.name? = some name ∧ s.noteRow place token next m row = m.record name v := by
  obtain ⟨index, hfault⟩ := hs.valid e he
  rcases OptionDecl.rows_cases hfault hrow with ⟨k, hdest, hk⟩ | ⟨name, hname,
    ⟨policy, hdest, hflag⟩ | ⟨fixed, hdest, hdirective⟩ |
    ⟨given, conversion, _, hdest, hconversion⟩⟩
  · left
    unfold noteRow
    cases hhit : row.hit? token with
    | none => rfl
    | some hit =>
      obtain ⟨_, rfl⟩ := Row.hit?_eq_some.mp hhit
      rcases hk with rfl | rfl <;> simp [Hit.stepWith_of_key hdest, noteStep]
  · obtain ⟨hlookup, hfree⟩ := hs.lookup_flag he hflag
    rw [noteRow_of_key hfree hlookup hdest]
    split
    · exact (noteCount_cases m name).imp And.right fun ⟨count, _, hcount⟩ =>
        ⟨name, _, hname, hcount⟩
    · exact .inl rfl
  · rw [noteRow_of_directive?_eq_none hdirective hdest]
    split
    · exact .inr ⟨name, _, hname, rfl⟩
    · exact .inl rfl
  · rw [noteRow_of_conversion? hconversion hdest]
    split
    · exact .inr ⟨name, _, hname, rfl⟩
    · exact .inl rfl

theorem Represents.noteDecl_induction {motive : Matches → Prop} (hs : s.Represents entries)
    (he : e ∈ entries) (hm : motive m)
    (hrecord : ∀ m name v, e.1.name? = some name → motive m → motive (m.record name v)) :
    motive (s.noteDecl place token next m e) := by
  refine List.foldlRecOn _ _ hm fun m hm row hrow => ?_
  rcases hs.noteRow_cases he hrow place token next m with hnote | ⟨name, v, hname, hnote⟩
  · rw [hnote]
    exact hm
  · rw [hnote]
    exact hrecord m name v hname hm

theorem Represents.get?_noteDecl_of_ne (hs : s.Represents entries) (he : e ∈ entries)
    (hne : e.1.name? ≠ some name) : (s.noteDecl place token next m e).get? name = m.get? name := by
  refine hs.noteDecl_induction (motive := fun m' => m'.get? name = m.get? name) he rfl ?_
  intro m' name' v hname' hm'
  rw [Matches.get?_record, if_neg, hm']
  rintro rfl
  exact hne hname'

/-- The count of a flag goes up by one. -/
theorem nextCount?_eq_some {count : ℕ} {next : UInt64} (hcount : count < UInt64.size)
    (h : m.get? name = if count = 0 then none else some (.uint (.ofNat count)))
    (hnext : nextCount? m name = some next) :
    count + 1 < UInt64.size ∧ next = .ofNat (count + 1) := by
  unfold nextCount? at hnext
  rw [h] at hnext
  by_cases hzero : count = 0
  · subst hzero
    cases hnext
    exact ⟨by decide, rfl⟩
  · have hnat : (UInt64.ofNat count).toNat = count := UInt64.toNat_ofNat_of_lt' hcount
    simp only [if_neg hzero, hnat, Option.ite_none_right_eq_some, Option.some.injEq] at hnext
    obtain ⟨hlt, rfl⟩ := hnext
    exact ⟨hlt, (UInt64.ofNat_add count 1).symm⟩

/-- The step of the only row of a declaration succeeds, where the row matches. -/
def Succeeds (s : OptionSet) (place : Place) (token : String) (next : Option String) (m : Matches)
    (e : OptionDecl × Key) : Prop :=
  ∀ hit : Hit Matches, e.1.rows e.2 = [hit.row] → hit.row.templ.match? token = some hit.sep →
    ∃ m', s.recordStep m (hit.stepWith place token (next.getD "")) = .ok m'

theorem Represents.records_flag (hs : s.Represents entries) {t : Template} {given : Option String}
    {policy : Policy} {key : Key} (he : (.flag t given policy, key) ∈ entries)
    (hname : (OptionDecl.flag t given policy).name? = some name)
    (h : (OptionDecl.flag t given policy).Records items (m.get? name))
    (hsucceeds : s.Succeeds place token next m (.flag t given policy, key)) :
    (OptionDecl.flag t given policy).Records (items ++ [.option place token next])
      ((s.noteDecl place token next m (.flag t given policy, key)).get? name) := by
  obtain ⟨hlookup, hfree⟩ := hs.lookup_flag he rfl
  rw [hname, Option.getD_some] at hlookup
  let row : Row Matches := ⟨t, .key key⟩
  have hrows : (OptionDecl.flag t given policy).rows key = [row] := rfl
  have hnote : s.noteRow place token next m row =
      if (t.match? token).isSome then noteCount m name else m :=
    noteRow_of_key hfree hlookup rfl
  have hcount : (items ++ [Item.option place token next]).countP t.matchesItem =
      items.countP t.matchesItem + if (t.match? token).isSome then 1 else 0 := by
    rw [List.countP_append, List.countP_singleton, Template.matchesItem_option]
  obtain ⟨hlt, hrecorded⟩ := h
  simp only [OptionDecl.Records, noteDecl, hrows, List.foldl_cons, List.foldl_nil, hnote, hcount]
  cases hmatch : t.match? token with
  | none => exact ⟨hlt, hrecorded⟩
  | some sep =>
    obtain ⟨m', hstep⟩ := hsucceeds ⟨row, sep⟩ rfl hmatch
    obtain ⟨hover, _⟩ | ⟨count, hnext, hnoted⟩ := noteCount_cases m name
    · -- The step would not have succeeded.
      rw [Hit.stepWith_of_key rfl, recordStep_offer_of_lookup hfree hlookup] at hstep
      simp only [hover] at hstep
      cases hstep
    · obtain ⟨hfits, rfl⟩ := nextCount?_eq_some hlt hrecorded hnext
      refine ⟨hfits, ?_⟩
      simp [hnoted, Matches.get?_record]

theorem Represents.records_set (hs : s.Represents entries) {t : Template} {given : Option String}
    {v : Int64} {key : Key} (he : (.set t given v, key) ∈ entries)
    (hname : (OptionDecl.set t given v).name? = some name)
    (h : (OptionDecl.set t given v).Records items (m.get? name)) :
    (OptionDecl.set t given v).Records (items ++ [.option place token next])
      ((s.noteDecl place token next m (.set t given v, key)).get? name) := by
  obtain ⟨index, hfault⟩ := hs.valid _ he
  let row : Row Matches := ⟨t, .field (Matches.field name) v⟩
  have hrows : (OptionDecl.set t given v).rows key = [row] := by
    simp only [OptionDecl.rows, hname, Option.getD_some, row]
  have hdirective : OptionDecl.directive? row.templ = none :=
    OptionDecl.directive?_of_fault?_eq_none hfault
  have hnote : s.noteRow place token next m row =
      if (t.match? token).isSome then m.record name (.int v) else m :=
    noteRow_of_directive?_eq_none hdirective rfl
  have hany : (items ++ [Item.option place token next]).any t.matchesItem =
      (items.any t.matchesItem || (t.match? token).isSome) := by
    simp [List.any_append, Template.matchesItem_option]
  simp only [OptionDecl.Records] at h ⊢
  simp only [noteDecl, hrows, List.foldl_cons, List.foldl_nil, hnote, hany]
  cases (t.match? token).isSome with
  | true => simp [Matches.get?_record]
  | false => simpa using h

/-- A toggle notes 1 for its name and 0 for the name after `no`, and these are two names. -/
theorem Represents.records_toggle (hs : s.Represents entries) {t : Template}
    {given : Option String} {key : Key} (he : (.toggle t given, key) ∈ entries)
    (hname : (OptionDecl.toggle t given).name? = some name)
    (h : (OptionDecl.toggle t given).Records items (m.get? name)) :
    (OptionDecl.toggle t given).Records (items ++ [.option place token next])
      ((s.noteDecl place token next m (.toggle t given, key)).get? name) := by
  obtain ⟨index, hfault⟩ := hs.valid _ he
  obtain ⟨hon, hoff⟩ := OptionDecl.parts?_of_fault?_eq_none hfault
  simp only [OptionDecl.Records] at h ⊢
  have hrows : (OptionDecl.toggle t given).rows key =
      [⟨⟨Table.toggleName t.text⟩, .field (Matches.field name) 1⟩,
        ⟨⟨"no" ++ Table.toggleName t.text⟩, .field (Matches.field name) 0⟩] := by
    simp only [OptionDecl.rows, hname, Option.getD_some]
  -- From here on the name may be any text without a separator.
  generalize Table.toggleName t.text = x at h hon hoff hrows ⊢
  have hne : x ≠ "no" ++ x := by
    intro heq
    have hlength := congrArg String.length heq
    rw [String.length_append] at hlength
    have htwo : "no".length = 2 := rfl
    omega
  simp only [noteDecl, hrows, List.foldl_cons, List.foldl_nil, noteRow_of_parts?_eq_none hon,
    noteRow_of_parts?_eq_none hoff, List.filterMap_append, List.filter_append]
  by_cases hx : token = x
  · simp [hx, hne, Item.option?, Matches.get?_record]
  · by_cases hnox : token = "no" ++ x
    · simp [hnox, hne.symm, Item.option?, Matches.get?_record]
    · simpa [hx, hnox, Item.option?] using h

theorem records_value {t : Template} {given : Option String} {key : Key}
    (hname : (OptionDecl.value t given).name? = some name)
    (h : (OptionDecl.value t given).Records items (m.get? name))
    (hsucceeds : s.Succeeds place token next m (.value t given, key)) :
    (OptionDecl.value t given).Records (items ++ [.option place token next])
      ((s.noteDecl place token next m (.value t given, key)).get? name) := by
  obtain ⟨conversion, hconversion, hrecorded⟩ := h
  refine ⟨conversion, hconversion, ?_⟩
  let row : Row Matches := ⟨t, .field (Matches.field name) 0⟩
  have hrows : (OptionDecl.value t given).rows key = [row] := by
    simp only [OptionDecl.rows, hname, Option.getD_some, row]
  have hnote : s.noteRow place token next m row =
      match t.match? token, conversion.convert (t.value token next) with
      | some _, .ok v => m.record name v
      | _, _ => m := noteRow_of_conversion? hconversion rfl
  simp only [noteDecl, hrows, List.foldl_cons, List.foldl_nil, hnote, List.filter_append]
  cases hmatch : t.match? token with
  | none => simpa [List.filter_cons, Template.matchesItem_option, hmatch] using hrecorded
  | some sep =>
    have hlast : [Item.option place token next].filter t.matchesItem =
        [.option place token next] := by
      simp [Template.matchesItem_option, hmatch]
    rw [hlast, List.getLast?_concat]
    cases hconvert : conversion.convert (t.value token next) with
    | ok v => simp [Matches.get?_record, Template.valueOf, hconvert]
    | error cause =>
      -- The step would not have succeeded.
      let hit : Hit Matches := ⟨row, sep⟩
      obtain ⟨m', hrecords⟩ := hsucceeds hit hrows hmatch
      have hhit : hit.row.templ.match? token = some hit.sep := hmatch
      have hstep := Hit.stepWith_of_conversion? hhit hconversion rfl place next
      rw [hstep, hconvert] at hrecords
      cases hrecords

theorem Represents.records_noteDecl (hs : s.Represents entries) (he : e ∈ entries)
    (hname : e.1.name? = some name) (h : e.1.Records items (m.get? name))
    (hsucceeds : s.Succeeds place token next m e) :
    e.1.Records (items ++ [.option place token next])
      ((s.noteDecl place token next m e).get? name) := by
  obtain ⟨d, key⟩ := e
  cases d with
  | flag t given policy => exact hs.records_flag he hname h hsucceeds
  | set t given v => exact hs.records_set he hname h
  | toggle t given => exact hs.records_toggle he hname h
  | value t given => exact records_value hname h hsucceeds
  | keep t | discard t => cases hname

end Declaration

section Item

variable {place : Place} {token : String} {next : Option String} {m : Matches} {name : String}
  {items : List Item}

/-- The matches of the rows of declarations, in order. -/
def hits (part : List (OptionDecl × Key)) (token : String) : List (Hit Matches) :=
  (part.flatMap fun e => e.1.rows e.2).filterMap fun row => row.hit? token

theorem foldl_hits (s : OptionSet) (part : List (OptionDecl × Key)) (place : Place)
    (token : String) (next : Option String) (m : Matches) :
    ((hits part token).map fun hit => hit.stepWith place token (next.getD "")).foldl s.noteStep m =
      part.foldl (s.noteDecl place token next) m := by
  have hrows : part.foldl (s.noteDecl place token next) m =
      (part.flatMap fun e => e.1.rows e.2).foldl (s.noteRow place token next) m := by
    rw [List.foldl_flatMap]
    rfl
  rw [hrows, hits, List.foldl_map, List.foldl_filterMap]
  congr 1
  funext m row
  unfold noteRow
  cases row.hit? token <;> rfl

theorem Consists.lookup_eq (h : s.Consists entries) (token : String) :
    s.table.lookup token = hits entries token := by
  rw [Table.lookup, h.rows, hits]

theorem Represents.foldl_itemSteps (hs : s.Represents entries) (place : Place) (token : String)
    (next : Option String) (m : Matches) :
    (s.table.itemSteps (.option place token next)).foldl s.noteStep m =
      entries.foldl (s.noteDecl place token next) m := by
  rw [← s.foldl_hits, ← hs.lookup_eq]
  by_cases hl : s.table.lookup token = []
  · rw [s.table.itemSteps_of_unmatched hl, hl]
    rfl
  · rw [s.table.itemSteps_of_matched hl]

/-- Where the steps of an option succeed, so does that of each declaration in its turn. -/
theorem Represents.succeeds_of_foldlM (hs : s.Represents entries) {m' : Matches}
    {before after : List (OptionDecl × Key)} {e : OptionDecl × Key}
    (hentries : entries = before ++ e :: after)
    (hrun : (s.table.itemSteps (.option place token next)).foldlM s.recordStep m = .ok m') :
    s.Succeeds place token next (before.foldl (s.noteDecl place token next) m) e := by
  intro hit hrows hmatch
  have hhit : hit.row.hit? token = some hit := Row.hit?_eq_some.mpr ⟨hmatch, rfl⟩
  have hlookup : s.table.lookup token = hits before token ++ hit :: hits after token := by
    rw [hs.lookup_eq, hentries]
    simp [hits, hrows, hhit]
  rw [s.table.itemSteps_of_matched (by simp [hlookup]), hlookup, List.map_append] at hrun
  obtain ⟨m₁, hbefore, hrest⟩ := exists_of_foldlM_append hrun
  obtain ⟨rfl, _⟩ := foldlM_eq_ok hbefore
  rw [s.foldl_hits, List.map_cons, List.foldlM_cons] at hrest
  cases hstep : s.recordStep (before.foldl (s.noteDecl place token next) m)
      (hit.stepWith place token (next.getD "")) with
  | ok m₂ => exact ⟨m₂, rfl⟩
  | error e =>
    rw [hstep] at hrest
    cases hrest

theorem Represents.foldl_itemSteps_induction {motive : Matches → Prop} (hs : s.Represents entries)
    (hm : motive m) (hrecord : ∀ m name v, (∃ d ∈ entries.map Prod.fst, d.name? = some name) →
      motive m → motive (m.record name v)) :
    motive ((s.table.itemSteps (.option place token next)).foldl s.noteStep m) := by
  rw [hs.foldl_itemSteps]
  refine List.foldlRecOn _ _ hm fun m hm e he => ?_
  refine hs.noteDecl_induction he hm fun m name v hname hm => ?_
  exact hrecord m name v ⟨e.1, List.mem_map_of_mem he, hname⟩ hm

/-- The one declaration of a name is one entry, and no other entry has that name. -/
theorem exists_eq_append_of_filter {d : OptionDecl}
    (h : (entries.map Prod.fst).filter (fun d => d.name? = some name) = [d]) :
    ∃ before key after, entries = before ++ (d, key) :: after ∧ d.name? = some name ∧
      (∀ e ∈ before, e.1.name? ≠ some name) ∧ ∀ e ∈ after, e.1.name? ≠ some name := by
  rw [List.filter_map, List.map_eq_singleton_iff] at h
  obtain ⟨⟨d', key⟩, hfilter, rfl⟩ := h
  obtain ⟨before, after, rfl, hbefore, hname, hafter⟩ := List.filter_eq_cons_iff.mp hfilter
  refine ⟨before, key, after, rfl, by simpa using hname, ?_, ?_⟩
  · intro e he
    simpa using hbefore e he
  · intro e he
    simpa using List.filter_eq_nil_iff.mp hafter e he

theorem Represents.get?_foldl_noteDecl_of_ne (hs : s.Represents entries)
    {part : List (OptionDecl × Key)} (hpart : part ⊆ entries)
    (hne : ∀ e ∈ part, e.1.name? ≠ some name) :
    (part.foldl (s.noteDecl place token next) m).get? name = m.get? name := by
  induction part generalizing m with
  | nil => rfl
  | cons e part ih =>
    rw [List.foldl_cons, ih (fun x hx => hpart (List.mem_cons_of_mem _ hx))
        fun x hx => hne x (List.mem_cons_of_mem _ hx)]
    exact hs.get?_noteDecl_of_ne (hpart List.mem_cons_self) (hne e List.mem_cons_self)

theorem Represents.records_option (hs : s.Represents entries) {d : OptionDecl} {m' : Matches}
    (hd : (entries.map Prod.fst).filter (fun d => d.name? = some name) = [d])
    (h : d.Records items (m.get? name))
    (hrun : (s.table.itemSteps (.option place token next)).foldlM s.recordStep m = .ok m') :
    d.Records (items ++ [.option place token next]) (m'.get? name) := by
  obtain ⟨before, key, after, hentries, hname, hbefore, hafter⟩ := exists_eq_append_of_filter hd
  have hmem : (d, key) ∈ entries := by simp [hentries]
  have hbeforeMem : before ⊆ entries := by simp [hentries]
  have hafterMem : after ⊆ entries := by
    rw [hentries]
    exact fun e he => by simp [he]
  have hsucceeds := hs.succeeds_of_foldlM hentries hrun
  obtain ⟨rfl, _⟩ := foldlM_eq_ok hrun
  -- The entries before and after this one touch nothing under its name.
  rw [hs.foldl_itemSteps, hentries, List.foldl_append, List.foldl_cons,
    hs.get?_foldl_noteDecl_of_ne hafterMem hafter]
  refine hs.records_noteDecl hmem hname ?_ hsucceeds
  rwa [hs.get?_foldl_noteDecl_of_ne hbeforeMem hbefore]

/-- The positional arguments matter for no value. -/
theorem OptionDecl.Records.positional {d : OptionDecl} {recorded : Option Value}
    (h : d.Records items recorded) (token : String) :
    d.Records (items ++ [.positional token]) recorded := by
  cases d with
  | flag _ _ _ | set _ _ _ | toggle _ _ | value _ _ =>
    simpa [OptionDecl.Records, Template.matchesItem, Item.option?, List.filterMap_cons] using h
  | keep _ | discard _ => exact h

theorem Represents.reflects_item (hs : s.Represents entries) {item : Item} {m' : Matches}
    (h : m.Reflects (entries.map Prod.fst) items none)
    (hrun : (s.table.itemSteps item).foldlM s.recordStep m = .ok m') :
    m'.Reflects (entries.map Prod.fst) (items ++ [item]) none := by
  obtain ⟨hm, _⟩ := foldlM_eq_ok hrun
  cases item with
  | positional token =>
    have hnote : m' = m.addPositional token := hm
    rw [hnote]
    constructor
    · intro d name hd
      exact OptionDecl.Records.positional (h.values d name hd) token
    · exact h.names
    · simp [h.positionals, Item.positional?]
  | option place token next =>
    constructor
    · intro d name hd
      exact hs.records_option hd (h.values d name hd) hrun
    · rw [hm]
      refine hs.foldl_itemSteps_induction (motive := fun m => ∀ name, (m.get? name).isSome →
        ∃ d ∈ entries.map Prod.fst, d.name? = some name) h.names ?_
      intro m name v hname hm name' hsome
      rw [Matches.get?_record] at hsome
      split at hsome
      next heq => exact heq ▸ hname
      next => exact hm name' hsome
    · have hsame : m'.positionals = m.positionals := by
        rw [hm]
        exact hs.foldl_itemSteps_induction (motive := fun m' => m'.positionals = m.positionals)
          rfl fun m' name v _ hm' => hm'
      rw [hsame, h.positionals]
      simp [Item.positional?]

end Item

theorem Represents.records_nil (hs : s.Represents entries) {d : OptionDecl}
    (hd : d ∈ entries.map Prod.fst) : d.Records [] none := by
  obtain ⟨e, he, rfl⟩ := List.mem_map.mp hd
  obtain ⟨index, hfault⟩ := hs.valid e he
  cases hdecl : e.1 with
  | value t given =>
    rw [hdecl] at hfault
    obtain ⟨conversion, hconversion⟩ :=
      Option.isSome_iff_exists.mp (OptionDecl.conversion?_of_fault?_eq_none hfault)
    exact ⟨conversion, hconversion, rfl⟩
  | flag _ _ _ =>
    have hsize : 0 < UInt64.size := by decide
    exact ⟨hsize, rfl⟩
  | set _ _ _ | toggle _ _ | keep _ | discard _ => rfl

theorem Represents.reflects_items (hs : s.Represents entries) {items : List Item} {m : Matches}
    (hrun : (items.flatMap s.table.itemSteps).foldlM s.recordStep .empty = .ok m) :
    m.Reflects (entries.map Prod.fst) items none := by
  induction items using List.reverseRecOn generalizing m with
  | nil =>
    cases hrun
    constructor
    · intro d name hd
      have hmem : d ∈ entries.map Prod.fst := by
        apply List.mem_of_mem_filter (p := fun d => decide (d.name? = some name))
        rw [hd]
        exact List.mem_singleton_self d
      exact hs.records_nil hmem
    · simp
    · rfl
  | append_singleton items item ih =>
    rw [List.flatMap_append, List.flatMap_singleton] at hrun
    obtain ⟨m₁, hitems, hitem⟩ := exists_of_foldlM_append hrun
    exact hs.reflects_item (ih hitems) hitem

theorem foldl_addPositional (m : Matches) (tokens : List String) :
    tokens.foldl Matches.addPositional m = ⟨m.values, m.positionals ++ tokens⟩ := by
  induction tokens generalizing m with
  | nil => simp
  | cons token tokens ih => simp [ih, Matches.addPositional]

theorem reflects_operands {m m' : Matches} {decls : List OptionDecl} {items : List Item}
    (h : m.Reflects decls items none) {operands : Option (List String)}
    (hrun : (operandSteps operands).foldlM s.recordStep m = .ok m') :
    m'.Reflects decls items operands := by
  obtain ⟨rfl, _⟩ := foldlM_eq_ok hrun
  cases operands with
  | none => exact h
  | some operands =>
    have hnote : (operandSteps (some operands)).foldl s.noteStep m =
        operands.foldl Matches.addPositional m := by
      rw [operandSteps, List.foldl_cons, List.foldl_map]
      rfl
    rw [hnote, foldl_addPositional]
    constructor
    · exact h.values
    · exact h.names
    · simp [h.positionals]

end OptionSet

namespace Config

variable {c : Config} {s : OptionSet}

theorem exists_represents (h : c.compile = .ok s) :
    ∃ entries, entries.map Prod.fst = c.options ∧ s.Represents entries := by
  obtain ⟨entries, hentries, hconsists, hhas⟩ := exists_consists h
  refine ⟨entries, hentries, ⟨hconsists, ?_, fun e he => hhas.isFree he, hhas.nodup⟩⟩
  intro e he
  apply fault?_eq_none_of_compile h
  rw [← hentries]
  exact List.mem_map_of_mem he

/-- The results of a parse that succeeds are what its reading says. -/
theorem reflects_of_parse_ok (h : c.compile = .ok s) {args out : ArgVec} {m : Matches}
    (hparse : s.parse args = .ok (m, out)) :
    ∃ items operands, s.table.Reads args.toList.tail items operands ∧
      m.Reflects c.options items operands := by
  obtain ⟨entries, hentries, hs⟩ := exists_represents h
  have hrun := OptionSet.exists_parse_eq_ok_iff.mp ⟨out, hparse⟩
  obtain ⟨_, hfail⟩ := OptionSet.foldlM_eq_ok hrun
  obtain ⟨items, operands, hread⟩ := s.table.exists_reads _ hfail
  refine ⟨items, operands, hread, ?_⟩
  rw [hread.steps_eq] at hrun
  obtain ⟨m₁, hitems, hoperands⟩ := OptionSet.exists_of_foldlM_append hrun
  rw [← hentries]
  exact OptionSet.reflects_operands (hs.reflects_items hitems) hoperands

theorem reflects_of_parse_ok_mixed :
    let c : Config := ⟨none, none, [.flag ⟨"-v"⟩ (some "verbose") .keep,
      .set ⟨"-q"⟩ (some "level") 3, .toggle ⟨"[no]color"⟩ none,
      .value ⟨"-n %i"⟩ (some "number")], .keep, .keep⟩
    let args := ArgVec.ofList
      ["prog", "-v", "in", "-o", "nocolor,color", "-n", "0x1f", "-v", "--", "-q"]
    ∃ s m out, c.compile = .ok s ∧ s.parse args = .ok (m, out) ∧
      m.get? "verbose" = some (.uint 2) ∧ m.get? "level" = none ∧
      m.get? "color" = some (.int 1) ∧ m.get? "number" = some (.int 31) ∧
      m.positionals = ["in", "-q"] ∧
      ∃ items operands, s.table.Reads args.toList.tail items operands ∧
        m.Reflects c.options items operands := by
  intro c args
  let m : Matches :=
    ⟨(((Matches.empty.record "verbose" (.uint 2)).record "color" (.int 1)).record "number"
      (.int 31)).values, ["in", "-q"]⟩
  have h : c.compile = .ok c.declared := compile_eq_ok_iff.mpr ⟨by decide, rfl⟩
  have hrun : (c.declared.table.steps .options args.toList.tail).foldlM c.declared.recordStep
      .empty = .ok m := by
    decide +kernel
  obtain ⟨out, hparse⟩ := OptionSet.exists_parse_eq_ok_iff.mpr hrun
  exact ⟨c.declared, m, out, h, hparse, by decide, by decide, by decide, by decide, rfl,
    reflects_of_parse_ok h hparse⟩

end Config

end GroupedOptions
