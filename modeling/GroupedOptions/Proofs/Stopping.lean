import GroupedOptions.Proofs.Consumption
import GroupedOptions.Proofs.Writes

/-!
# Where a parse stops

A parse without a callback that fails has used its tokens in order up to one of them, the fields of
a group up to one of them and the rows of an option up to one of them, and everything before that
row has been written. The row itself has written nothing, and nothing after it has a turn.
-/
namespace GroupedOptions

variable {D : Type}

/-- The step is refused, and the data is what it was. -/
inductive Step.Refused : Step D → ParseError → Prop
  | fail {e} : Refused (.fail e) e
  | store {field token v cause} : (∀ data, field.store data v = (data, some cause)) →
      Refused (.store field token v) (.invalidConversion token cause)

/-- A row fails on an option: it awaits a value and there is none, or its answer is refused. -/
inductive Hit.Fails (h : Hit D) (place : Place) (token : String) (next : Option String) :
    ParseError → Prop
  | noValue : h.row.templ.IsSpacedName token → next = none →
      Fails h place token next (.missingArgument token)
  | refused {step e} : h.Answers place token next step → step.Refused e → Fails h place token next e

namespace Table

variable (t : Table D)

/-- An option fails with `next` for the token that is left for its value: its rows answer with the
steps up to one that fails. -/
def StopsOption (place : Place) (token : String) (next : Option String) (steps : List (Step D))
    (e : ParseError) : Prop :=
  ∃ hits hit later, t.lookup token = hits ++ hit :: later ∧
    List.Forall₂ (fun hit step => hit.Answers place token next step) hits steps ∧
    hit.Fails place token next e

/-- A group fails with `tokens` after it: fields are served up to one that does not decode, or is
an option that fails. -/
inductive StopsFields : List (Except Group.DecodeError String) → List String → List (Step D) →
    ParseError → Prop
  | undecoded {fields options cause later rest} : t.ServesFields fields options →
      StopsFields (fields ++ .error cause :: later) (options.values ++ rest)
        (options.items.flatMap t.itemSteps) (.invalidGroup cause)
  | option {fields options field later rest steps e} : t.ServesFields fields options →
      t.StopsOption .group field rest.head? steps e →
      StopsFields (fields ++ .ok field :: later) (options.values ++ rest)
        (options.items.flatMap t.itemSteps ++ steps) e

/-- The first of the tokens fails, after the steps that are taken in its turn. -/
inductive Stops : List String → List (Step D) → ParseError → Prop
  | noGroup {token} : Shape.of token = .group "" → Stops [token] [] (.missingArgument "-o")
  | flag {token rest steps e} : Shape.of token = .flag →
      t.StopsOption .output token rest.head? steps e → Stops (token :: rest) steps e
  | attachedGroup {token text rest steps e} : Shape.of token = .group text → text ≠ "" →
      t.StopsFields (Group.fields text) rest steps e → Stops (token :: rest) steps e
  | group {token text rest steps e} : Shape.of token = .group "" →
      t.StopsFields (Group.fields text) rest steps e → Stops (token :: text :: rest) steps e

end Table

/-- `failure.Follows steps data`: the steps are taken whatever the data, and of `data` they make
what the failure leaves. -/
structure Failure.Follows (failure : Failure D) (steps : List (Step D)) (data : D) : Prop where
  succeeds : ∀ step ∈ steps, step.Succeeds
  data_eq : failure.data = writeSteps steps data

theorem Field.IsTyped.refuses {f : Field D} (h : f.IsTyped) {data data' : D} {v : Value}
    {cause : ConvError} (hstore : f.store data v = (data', some cause)) (data₁ : D) :
    f.store data₁ v = (data₁, some cause) := by
  obtain ⟨α, _, put, rfl⟩ := h
  simp only [Field.of] at hstore ⊢
  cases hv : (fromValue v : Except ConvError α) with
  | ok x => simp [hv] at hstore
  | error e =>
    simp only [hv, Prod.mk.injEq, Option.some.injEq] at hstore
    rw [hstore.2]

namespace Progress

variable {t : Table D} {s s' : Progress D} {failure : Failure D}

theorem refused_of_take {step : Step D}
    (htyped : ∀ field token v, step = .store field token v → field.IsTyped)
    (h : s.take none step = .error failure) :
    step.Refused failure.error ∧ failure.data = s.data := by
  cases step with
  | offer key place token =>
    simp only [take, offer] at h
    split at h
    · cases h
    · split at h <;> cases h
  | separator => cases h
  | fail e =>
    cases h
    exact ⟨.fail, rfl⟩
  | store field token v =>
    have hfield := htyped field token v rfl
    cases hstore : field.store s.data v with
    | mk data error =>
      simp only [take, hstore] at h
      cases error with
      | none => cases h
      | some cause =>
        cases h
        refine ⟨.store (hfield.refuses hstore), ?_⟩
        have hsame := hfield.refuses hstore s.data
        rw [hstore] at hsame
        exact (Prod.mk.inj hsame).1

theorem map_take_ne_error {step : Step D} (h : step.Succeeds) (rest : List String) :
    (s.take none step).map (·, rest) ≠ .error failure := by
  obtain ⟨s', hs'⟩ := exists_take_of_succeeds (s := s) h
  rw [hs']
  simp [Except.map]

theorem follows_nil (h : failure.data = s.data) : failure.Follows [] s.data where
  succeeds := by simp
  data_eq := h

theorem follows_of_run {before steps : List (Step D)} (hrun : s.run none before = .ok s')
    (htyped : ∀ field token v, .store field token v ∈ before → field.IsTyped)
    (h : failure.Follows steps s'.data) : failure.Follows (before ++ steps) s.data where
  succeeds := by
    intro step hmem
    rcases List.mem_append.mp hmem with hmem | hmem
    · exact succeeds_of_run_ok hrun htyped step hmem
    · exact h.succeeds step hmem
  data_eq := by rw [h.data_eq, data_run hrun, writeSteps_append]

/-- The turn of a row: it finds no value, or answers with a step and leaves the same value for the
rows after it. -/
theorem takeRows_cons_cases {hit : Hit D} {token : String} {next : Option String}
    (hmatch : hit.row.templ.match? token = some hit.sep) (callback : Option (Callback D))
    (place : Place) (s : Progress D) {pending : Option String} {rest : List String}
    (hnext : (pendingOrNext? pending rest).map Prod.fst = next) (hits : List (Hit D)) :
    (hit.row.templ.IsSpacedName token ∧ next = none ∧
      s.takeRows callback place token pending rest (hit :: hits) =
        .error ⟨s.data, s.calls, .missingArgument token⟩) ∨
    ∃ text pending' rest', hit.Answers place token next (hit.step place text) ∧
      (pendingOrNext? pending' rest').map Prod.fst = next ∧
      s.takeRows callback place token pending rest (hit :: hits) =
        (s.take callback (hit.step place text)).bind fun s =>
          s.takeRows callback place token pending' rest' hits := by
  have hname := Hit.awaitsValue_iff hmatch
  rw [takeRows]
  by_cases hw : hit.awaitsValue token = true
  · rw [if_pos hw]
    cases hvalue : pendingOrNext? pending rest with
    | none => exact .inl ⟨hname.mp hw, by rw [← hnext, hvalue]; rfl, rfl⟩
    | some left =>
      obtain ⟨value, rest'⟩ := left
      have hsome : next = some value := by rw [← hnext, hvalue]; rfl
      refine .inr ⟨token ++ value, some value, rest', ⟨?_, ?_⟩, hsome.symm, rfl⟩
      · exact fun _ => ⟨value, hsome, rfl⟩
      · exact fun hnot => absurd (hname.mp hw) hnot
  · rw [if_neg hw]
    refine .inr ⟨token, pending, rest, ⟨?_, ?_⟩, hnext, rfl⟩
    · exact fun hspaced => absurd (hname.mpr hspaced) hw
    · exact fun _ => rfl

theorem exists_fails_of_takeRows {place : Place} {token : String} {next : Option String}
    {hits : List (Hit D)} (hmatch : ∀ hit ∈ hits, hit.row.templ.match? token = some hit.sep)
    (htyped : ∀ hit ∈ hits, ∀ field fixed, hit.row.dest = .field field fixed → field.IsTyped)
    {pending : Option String} {rest : List String}
    (hnext : (pendingOrNext? pending rest).map Prod.fst = next)
    (h : s.takeRows none place token pending rest hits = .error failure) :
    ∃ done hit later steps, hits = done ++ hit :: later ∧
      List.Forall₂ (fun hit step => hit.Answers place token next step) done steps ∧
      hit.Fails place token next failure.error ∧ failure.Follows steps s.data := by
  -- Whether it was taken or not, the value for the rows stays `next`.
  induction hits generalizing s pending rest with
  | nil => cases h
  | cons hit hits ih =>
    have hstores (text : String) (field : Field D) (token : String) (v : Value)
        (hstep : hit.step place text = .store field token v) : field.IsTyped := by
      obtain ⟨fixed, hdest⟩ := Hit.exists_dest_of_step hstep
      exact htyped hit List.mem_cons_self field fixed hdest
    obtain ⟨hname, hnone, hrows⟩ | ⟨text, pending', rest', hanswers, hnext', hrows⟩ :=
      takeRows_cons_cases (hmatch hit List.mem_cons_self) none place s hnext hits
    · cases hrows.symm.trans h
      exact ⟨[], hit, hits, [], rfl, .nil, .noValue hname hnone, follows_nil rfl⟩
    rw [hrows] at h
    cases htake : s.take none (hit.step place text) with
    | error failure' =>
      rw [htake] at h
      cases h
      obtain ⟨hrefused, hdata⟩ := refused_of_take (hstores text) htake
      exact ⟨[], hit, hits, [], rfl, .nil, .refused hanswers hrefused, follows_nil hdata⟩
    | ok s' =>
      rw [htake] at h
      obtain ⟨done, failing, later, steps, rfl, hdone, hfails, hfollows⟩ :=
        ih (fun hit hmem => hmatch hit (List.mem_cons_of_mem _ hmem))
          (fun hit hmem => htyped hit (List.mem_cons_of_mem _ hmem)) hnext' h
      have hrun : s.run none [hit.step place text] = .ok s' := (run_singleton ..).trans htake
      refine ⟨hit :: done, failing, later, hit.step place text :: steps, rfl, .cons hanswers hdone,
        hfails, follows_of_run hrun ?_ hfollows⟩
      intro field token v hmem
      exact hstores text field token v (List.mem_singleton.mp hmem).symm

theorem exists_stopsOption_of_takeOption (htyped : t.IsTyped) {place : Place} {token : String}
    {rest : List String} (h : s.takeOption none t place token rest = .error failure) :
    ∃ steps, t.StopsOption place token rest.head? steps failure.error ∧
      failure.Follows steps s.data := by
  have hnext : (pendingOrNext? none rest).map Prod.fst = rest.head? := by cases rest <;> rfl
  by_cases hl : t.lookup token = []
  · simp only [takeOption, hl] at h
    have hstep : (Step.offer .unmatched place token : Step D).Succeeds := trivial
    exact absurd h (map_take_ne_error hstep rest)
  · have hrows : s.takeOption none t place token rest =
        s.takeRows none place token none rest (t.lookup token) := by
      obtain ⟨hit, hits, hl⟩ := List.exists_cons_of_ne_nil hl
      simp [takeOption, hl]
    rw [hrows] at h
    obtain ⟨done, hit, later, steps, hlookup, hdone, hfails, hfollows⟩ :=
      exists_fails_of_takeRows (fun hit hmem => (t.mem_lookup.mp hmem).2)
        (fun hit hmem => htyped hit.row (t.mem_lookup.mp hmem).1) hnext h
    exact ⟨steps, ⟨done, hit, later, hlookup, hdone, hfails⟩, hfollows⟩

end Progress

theorem Table.StopsFields.cons {t : Table D} {field : String} {value : Option String}
    {fields : List (Except Group.DecodeError String)} {rest : List String}
    {steps : List (Step D)} {e : ParseError} (h : t.Serves .group field value)
    (hfields : t.StopsFields fields rest steps e) :
    t.StopsFields (.ok field :: fields) (value.toList ++ rest)
      (t.itemSteps (.option .group field value) ++ steps) e := by
  cases hfields with
  | undecoded hserves =>
    rw [← List.append_assoc, ← Options.values_cons, ← List.flatMap_cons, ← Options.items_cons]
    exact .undecoded (hserves.cons h)
  | option hserves hoption =>
    rw [← List.append_assoc, ← List.append_assoc, ← Options.values_cons, ← List.flatMap_cons,
      ← Options.items_cons]
    exact .option (hserves.cons h) hoption

namespace Progress

variable {t : Table D} {s s' : Progress D} {failure : Failure D}

theorem exists_stopsFields_of_takeFields (htyped : t.IsTyped)
    {fields : List (Except Group.DecodeError String)} {rest : List String}
    (h : s.takeFields none t rest fields = .error failure) :
    ∃ steps, t.StopsFields fields rest steps failure.error ∧ failure.Follows steps s.data := by
  induction fields generalizing s rest with
  | nil => cases h
  | cons first fields ih =>
    cases first with
    | error e =>
      cases h
      exact ⟨[], .undecoded (.nil t), follows_nil rfl⟩
    | ok field =>
      rw [takeFields] at h
      cases hoption : s.takeOption none t .group field rest with
      | error failure' =>
        rw [hoption] at h
        cases h
        obtain ⟨steps, hstops, hfollows⟩ := exists_stopsOption_of_takeOption htyped hoption
        exact ⟨steps, .option (.nil t) hstops, hfollows⟩
      | ok left =>
        obtain ⟨s₁, rest₁⟩ := left
        rw [hoption] at h
        obtain ⟨value, rfl, hserves, hrun⟩ := exists_serves_of_takeOption hoption
        obtain ⟨steps, hstops, hfollows⟩ := ih h
        refine ⟨_, hstops.cons hserves, follows_of_run hrun ?_ hfollows⟩
        exact fun field token v hmem => htyped.of_store_mem hmem

theorem exists_stops_of_takeToken (htyped : t.IsTyped) {token : String} {rest : List String}
    (hnone : s.separator = none) (h : s.takeToken none t token rest = .error failure) :
    ∃ steps, t.Stops (token :: rest) steps failure.error ∧ failure.Follows steps s.data := by
  unfold takeToken at h
  rw [if_neg (by simp [hnone])] at h
  cases hs : Shape.of token with
  | positional =>
    simp only [hs] at h
    have hstep : (Step.offer .positional .output token : Step D).Succeeds := trivial
    exact absurd h (map_take_ne_error hstep rest)
  | separator =>
    simp only [hs] at h
    have hstep : (Step.separator : Step D).Succeeds := trivial
    exact absurd h (map_take_ne_error hstep rest)
  | flag =>
    simp only [hs] at h
    obtain ⟨steps, hstops, hfollows⟩ := exists_stopsOption_of_takeOption htyped h
    exact ⟨steps, .flag hs hstops, hfollows⟩
  | group text =>
    -- A group fails for want of its token, or in its fields.
    simp only [hs] at h
    split at h
    next htext =>
      subst htext
      cases rest with
      | nil =>
        cases h
        exact ⟨[], .noGroup hs, follows_nil rfl⟩
      | cons text rest =>
        obtain ⟨steps, hstops, hfollows⟩ := exists_stopsFields_of_takeFields htyped h
        exact ⟨steps, .group hs hstops, hfollows⟩
    next htext =>
      obtain ⟨steps, hstops, hfollows⟩ := exists_stopsFields_of_takeFields htyped h
      exact ⟨steps, .attachedGroup hs htext hstops, hfollows⟩

/-- A loop that fails has used the tokens before one of them, and stops there. -/
theorem exists_stops_of_takeAll (htyped : t.IsTyped) {tokens : List String}
    (hnone : s.separator = none) (h : s.takeAll none t tokens = .error failure) :
    ∃ (uses : List Use) (rest : List String) (steps : List (Step D)), (∀ use ∈ uses, t.IsUse use) ∧
      tokens = uses.flatMap Use.tokens ++ rest ∧ t.Stops rest steps failure.error ∧
      failure.Follows ((uses.flatMap Use.items).flatMap t.itemSteps ++ steps) s.data := by
  -- A token takes some of those after it, so the induction is on the number of tokens.
  induction hn : tokens.length using Nat.strong_induction_on generalizing s tokens with
  | _ n ih =>
    cases tokens with
    | nil =>
      rw [takeAll] at h
      cases h
    | cons token rest =>
      by_cases hs : Shape.of token = .separator
      · rw [takeAll_separator hnone hs] at h
        have hsucceeds : ∀ step ∈ (operandSteps (some rest) : List (Step D)), step.Succeeds :=
          fun _ => Step.succeeds_of_mem_operandSteps
        obtain ⟨s', hs'⟩ := exists_run_of_succeeds (s := s) hsucceeds
        cases hs'.symm.trans h
      rw [takeAll_cons] at h
      cases htake : s.takeToken none t token rest with
      | error failure' =>
        rw [htake] at h
        cases h
        obtain ⟨steps, hstops, hfollows⟩ := exists_stops_of_takeToken htyped hnone htake
        exact ⟨[], token :: rest, steps, by simp, rfl, hstops, hfollows⟩
      | ok left =>
        obtain ⟨s₁, rest₁⟩ := left
        rw [htake] at h
        obtain ⟨use, huse, htokens, hrun⟩ := exists_use_of_takeToken hnone hs htake
        have hlength := (suffix_of_takeToken htake).length_le
        rw [List.length_cons] at hn
        obtain ⟨uses, rest', steps, huses, rfl, hstops, hfollows⟩ :=
          ih rest₁.length (by omega) (separator_of_takeToken hnone hs htake) h rfl
        refine ⟨use :: uses, rest', steps, by simpa [huse] using huses, by simp [htokens], hstops,
          ?_⟩
        rw [List.flatMap_cons, List.flatMap_append, List.append_assoc]
        apply follows_of_run hrun _ hfollows
        intro field token v hmem
        obtain ⟨item, -, hstore⟩ := List.mem_flatMap.mp hmem
        exact htyped.of_store_mem hstore

end Progress

/-- A parse without a callback that fails leaves the data as the rows before the one that failed
have written it, in the order of the tokens, of the fields of a group and of the rows of an option.
The row that failed and all that comes after it write nothing. -/
theorem data_of_parse_error {t : Table D} {data : D} {args : ArgVec} {e : ParseError}
    (htyped : t.IsTyped) (h : (parse t none data args).result = .error e) :
    ∃ (program : String) (uses : List Use) (rest : List String) (steps : List (Step D)),
      args.toList = program :: (uses.flatMap Use.tokens ++ rest) ∧ (∀ use ∈ uses, t.IsUse use) ∧
      t.Stops rest steps e ∧
      (∀ step ∈ (uses.flatMap Use.items).flatMap t.itemSteps ++ steps, step.Succeeds) ∧
      (parse t none data args).data =
        writeSteps steps (t.writes (uses.flatMap Use.items) data) := by
  cases hargs : args.toList with
  | nil =>
    rw [parse_of_toList_eq_nil hargs] at h
    cases h
  | cons program tokens =>
    have hloop : (Progress.start data program).takeAll none t tokens =
        (Progress.start data program).run none (t.steps .options tokens) :=
      Progress.takeAll_eq_run rfl tokens
    rw [parse_eq_ofRun hargs, ← hloop] at h ⊢
    cases htake : (Progress.start data program).takeAll none t tokens with
    | ok s =>
      rw [htake] at h
      obtain ⟨list, hlist, -⟩ := Progress.rebuilds (by simp) (hloop.symm.trans htake)
      simp [Outcome.ofRun, hlist, Except.mapError] at h
    | error failure =>
      rw [htake] at h
      cases h
      obtain ⟨uses, rest, steps, huses, rfl, hstops, hfollows⟩ :=
        Progress.exists_stops_of_takeAll htyped rfl htake
      refine ⟨program, uses, rest, steps, rfl, huses, hstops, hfollows.succeeds, ?_⟩
      rw [← t.writeSteps_flatMap, ← writeSteps_append]
      exact hfollows.data_eq

theorem Table.isTyped_empty : (Table.empty : Table D).IsTyped := by
  intro row hrow
  cases hrow

theorem Table.IsTyped.addField {t : Table D} (h : t.IsTyped) {field : Field D}
    (hfield : field.IsTyped) (templ : String) : (t.addField templ field).IsTyped := by
  intro row hrow field' fixed hdest
  rcases List.mem_append.mp hrow with hrow | hrow
  · exact h row hrow field' fixed hdest
  · cases List.mem_singleton.mp hrow
    cases hdest
    exact hfield

/-- The first row of `-p 70000` has written when the second finds it too large. -/
theorem data_of_parse_error_port :
    let wide : Field (Option UInt32 × Option UInt16) := .of fun d (x : UInt32) => (some x, d.2)
    let narrow : Field (Option UInt32 × Option UInt16) := .of fun d (x : UInt16) => (d.1, some x)
    let t := (Table.empty.addField "-p %u" wide).addField "-p %u" narrow
    let args := ArgVec.ofList ["prog", "-p", "22", "-p", "70000", "-p", "1"]
    let e := ParseError.invalidConversion "-p70000" .outOfRange
    t.IsTyped ∧ parse t none (none, none) args = ⟨(some 70000, some 22), [], .error e⟩ ∧
      ∃ (program : String) (uses : List Use) (rest : List String) (steps : List (Step _)),
        args.toList = program :: (uses.flatMap Use.tokens ++ rest) ∧ (∀ use ∈ uses, t.IsUse use) ∧
        t.Stops rest steps e ∧
        (∀ step ∈ (uses.flatMap Use.items).flatMap t.itemSteps ++ steps, step.Succeeds) ∧
        (parse t none (none, none) args).data =
          writeSteps steps (t.writes (uses.flatMap Use.items) (none, none)) := by
  intro wide narrow t args e
  have htyped : t.IsTyped :=
    (Table.isTyped_empty.addField ⟨_, _, _, rfl⟩ "-p %u").addField ⟨_, _, _, rfl⟩ "-p %u"
  have hparse : parse t none (none, none) args = ⟨(some 70000, some 22), [], .error e⟩ := by cbv
  have hresult : (parse t none (none, none) args).result = .error e :=
    congrArg Outcome.result hparse
  exact ⟨htyped, hparse, data_of_parse_error htyped hresult⟩

end GroupedOptions
