import GroupedOptions.Proofs.Continuation
import GroupedOptions.Proofs.Flushing

/-!
# What a parse takes from the vector

The tokens can also be taken while the steps are: each token has its turn as it comes, the fields
of a group one after the other, the matching rows of a field one after the other, and a row that
awaits a value takes the next token unless a row before it has. A parse is the same loop. What it
takes is then plain: an option has one more token where some row awaits a value and none elsewhere,
all such rows are handed the same text, and a run that succeeds has used every token once.
-/
namespace GroupedOptions

variable {D : Type}

/-- The value of an option: the one that was taken for it before, or else the next token. -/
def pendingOrNext? : Option String → List String → Option (String × List String)
  | some value, rest => some (value, rest)
  | none, value :: rest => some (value, rest)
  | none, [] => none

namespace Progress

/-- The turns of the rows that match a token, with the value that has been taken for it. The
answer comes with the tokens that are left. -/
def takeRows (callback : Option (Callback D)) (place : Place) (token : String) (s : Progress D)
    (pending : Option String) (rest : List String) :
    List (Hit D) → Except (Failure D) (Progress D × List String)
  | [] => .ok (s, rest)
  | hit :: hits =>
      if hit.awaitsValue token then
        match pendingOrNext? pending rest with
        | none => .error ⟨s.data, s.calls, .missingArgument token⟩
        | some (value, rest) =>
            (s.take callback (hit.step place (token ++ value))).bind fun s =>
              takeRows callback place token s (some value) rest hits
      else
        (s.take callback (hit.step place token)).bind fun s =>
          takeRows callback place token s pending rest hits

def takeOption (callback : Option (Callback D)) (t : Table D) (place : Place) (s : Progress D)
    (token : String) (rest : List String) : Except (Failure D) (Progress D × List String) :=
  match t.lookup token with
  | [] => (s.offer callback .unmatched place token).map (·, rest)
  | hits => s.takeRows callback place token none rest hits

def takeFields (callback : Option (Callback D)) (t : Table D) (s : Progress D)
    (rest : List String) : List (Except Group.DecodeError String) →
      Except (Failure D) (Progress D × List String)
  | [] => .ok (s, rest)
  | .error e :: _ => .error ⟨s.data, s.calls, .invalidGroup e⟩
  | .ok field :: fields =>
      (s.takeOption callback t .group field rest).bind fun (s, rest) =>
        takeFields callback t s rest fields

/-- The turn of a token, which may take some of the tokens after it. -/
def takeToken (callback : Option (Callback D)) (t : Table D) (s : Progress D) (token : String)
    (rest : List String) : Except (Failure D) (Progress D × List String) :=
  if s.separator.isSome then (s.offer callback .positional .output token).map (·, rest)
  else
    match Shape.of token with
    | .positional => (s.offer callback .positional .output token).map (·, rest)
    | .group attached =>
        if attached = "" then
          match rest with
          | [] => .error ⟨s.data, s.calls, .missingArgument "-o"⟩
          | group :: rest => s.takeFields callback t rest (Group.fields group)
        else s.takeFields callback t rest (Group.fields attached)
    | .separator => (s.take callback .separator).map (·, rest)
    | .flag => s.takeOption callback t .output token rest

variable {callback : Option (Callback D)} {t : Table D} {s s' : Progress D}

theorem run_cons (callback : Option (Callback D)) (s : Progress D) (step : Step D)
    (steps : List (Step D)) : s.run callback (step :: steps) =
      (s.take callback step).bind fun s => s.run callback steps := by
  rw [run]
  cases s.take callback step <;> rfl

theorem run_singleton (callback : Option (Callback D)) (s : Progress D) (step : Step D) :
    s.run callback [step] = s.take callback step := by
  rw [run_cons]
  cases s.take callback step <;> rfl

/-- Once there is a value, every row that awaits one is handed the same. -/
theorem takeRows_some (place : Place) (token value : String) (s : Progress D) (rest : List String)
    (hits : List (Hit D)) : s.takeRows callback place token (some value) rest hits =
      (s.run callback (hits.map fun hit => hit.stepWith place token value)).map (·, rest) := by
  induction hits generalizing s with
  | nil => rfl
  | cons hit hits ih =>
    have hrows : s.takeRows callback place token (some value) rest (hit :: hits) =
        (s.take callback (hit.stepWith place token value)).bind fun s =>
          s.takeRows callback place token (some value) rest hits := by
      cases hw : hit.awaitsValue token <;> simp [takeRows, hw, pendingOrNext?, Hit.stepWith]
    rw [hrows, List.map_cons, run_cons]
    cases s.take callback (hit.stepWith place token value) with
    | error failure => rfl
    | ok s => exact ih s

/-- Rows that await no value take their turns and no token. -/
theorem takeRows_append {hits : List (Hit D)} {token : String}
    (h : ∀ hit ∈ hits, hit.awaitsValue token = false) (place : Place) (s : Progress D)
    (rest : List String) (later : List (Hit D)) :
    s.takeRows callback place token none rest (hits ++ later) =
      (s.run callback (hits.map fun hit => hit.step place token)).bind fun s =>
        s.takeRows callback place token none rest later := by
  induction hits generalizing s with
  | nil => rfl
  | cons hit hits ih =>
    rw [List.cons_append, takeRows, if_neg (by simp [h hit]), List.map_cons, run_cons]
    cases s.take callback (hit.step place token) with
    | error failure => rfl
    | ok s => exact ih (fun hit hmem => h hit (by simp [hmem])) s

/-- The first row that awaits a value takes it for the others. -/
theorem takeRows_none_cons {hit : Hit D} {token : String} (h : hit.awaitsValue token = true)
    (place : Place) (s : Progress D) (value : String) (rest : List String) (hits : List (Hit D)) :
    s.takeRows callback place token none (value :: rest) (hit :: hits) =
      s.takeRows callback place token (some value) rest (hit :: hits) := by
  simp [takeRows, h, pendingOrNext?]

theorem takeOption_eq (place : Place) (token : String) (s : Progress D) (rest : List String) :
    s.takeOption callback t place token rest =
      (s.run callback (t.optionSteps place token).1).bind fun s =>
        s.takeRows callback place token none rest (t.optionSteps place token).2 := by
  by_cases hl : t.lookup token = []
  · simp only [takeOption, Table.optionSteps, hl, run_singleton, take]
    cases s.offer callback .unmatched place token <;> rfl
  · have hoption : s.takeOption callback t place token rest =
        s.takeRows callback place token none rest (t.lookup token) := by
      obtain ⟨hit, hits, hl⟩ := List.exists_cons_of_ne_nil hl
      simp [takeOption, hl]
    have hnow : ∀ hit ∈ (t.lookup token).takeWhile fun hit => !hit.awaitsValue token,
        hit.awaitsValue token = false := by
      intro hit hmem
      simpa using List.mem_takeWhile_imp hmem
    rw [hoption, t.optionSteps_of_matched hl, ← takeRows_append hnow,
      List.takeWhile_append_dropWhile]

theorem awaitsValue_of_optionSteps {place : Place} {token : String} {now : List (Step D)}
    {hit : Hit D} {hits : List (Hit D)} (h : t.optionSteps place token = (now, hit :: hits)) :
    hit.awaitsValue token = true := by
  have hl : t.lookup token ≠ [] := by
    intro hl
    simp [Table.optionSteps, hl] at h
  rw [t.optionSteps_of_matched hl] at h
  obtain ⟨_, hdrop⟩ := Prod.mk.inj h
  have hhead := List.head?_dropWhile_not (fun hit => !hit.awaitsValue token) (t.lookup token)
  rw [hdrop] at hhead
  simpa using hhead

theorem takeOption_of_not_awaits {token : String} (h : ¬ t.Awaits token) (place : Place)
    (s : Progress D) (rest : List String) : s.takeOption callback t place token rest =
      (s.run callback (t.itemSteps (.option place token none))).map (·, rest) := by
  rw [takeOption_eq, t.optionSteps_of_not_awaits h]
  cases s.run callback (t.itemSteps (.option place token none)) <;> rfl

theorem takeOption_of_awaits {token : String} (h : t.Awaits token) (place : Place)
    (s : Progress D) (value : String) (rest : List String) :
    s.takeOption callback t place token (value :: rest) =
      (s.run callback (t.itemSteps (.option place token (some value)))).map (·, rest) := by
  obtain ⟨now, hit, hits, hopt, hitem⟩ := t.optionSteps_of_awaits h place
  rw [takeOption_eq, ← hitem, run_append, hopt]
  cases s.run callback now with
  | error failure => rfl
  | ok s =>
    have hfirst := awaitsValue_of_optionSteps hopt
    exact (takeRows_none_cons hfirst place s value rest hits).trans
      (takeRows_some place token value s rest (hit :: hits))

/-- The rows before the first that awaits a value still have their turns when there is none. -/
theorem takeOption_nil {place : Place} {token : String} {now : List (Step D)} {hit : Hit D}
    {hits : List (Hit D)} (h : t.optionSteps place token = (now, hit :: hits)) (s : Progress D) :
    s.takeOption callback t place token [] =
      (s.run callback (now ++ [.fail (.missingArgument token)])).map (·, []) := by
  rw [takeOption_eq, h, run_append]
  cases s.run callback now with
  | error failure => rfl
  | ok s => simp [takeRows, awaitsValue_of_optionSteps h, pendingOrNext?, Except.bind, run, take,
      fail, Except.map]

theorem ok_of_map_ok {x : Except (Failure D) (Progress D)} {rest rest' : List String}
    (h : x.map (·, rest) = .ok (s', rest')) : x = .ok s' ∧ rest = rest' := by
  cases x with
  | error failure => cases h
  | ok s =>
    cases h
    exact ⟨rfl, rfl⟩

theorem exists_of_bind_ok {α β : Type} {x : Except (Failure D) α} {f : α → Except (Failure D) β}
    {b : β} (h : x.bind f = .ok b) : ∃ a, x = .ok a ∧ f a = .ok b := by
  cases x with
  | error failure => cases h
  | ok a => exact ⟨a, rfl, h⟩

end Progress

/-- What a row does with an option: under the bare name of its spaced template it is handed the
name with the value, and otherwise the token as it is. -/
structure Hit.Answers (h : Hit D) (place : Place) (token : String) (value : Option String)
    (step : Step D) : Prop where
  named : h.row.templ.IsSpacedName token →
    ∃ v, value = some v ∧ step = h.step place (token ++ v)
  other : ¬ h.row.templ.IsSpacedName token → step = h.step place token

/-- An option has a value of its own exactly when it is the bare name of some row, and then every
row that it matches answers in table order. -/
structure Table.Serves (t : Table D) (place : Place) (token : String) (value : Option String) :
    Prop where
  value_iff : value.isSome = true ↔ ∃ row ∈ t.rows, row.templ.IsSpacedName token
  unmatched : t.lookup token = [] →
    t.itemSteps (.option place token value) = [.offer .unmatched place token]
  matched : t.lookup token ≠ [] →
    List.Forall₂ (fun hit step => hit.Answers place token value step) (t.lookup token)
      (t.itemSteps (.option place token value))

theorem Hit.answers_stepWith {hit : Hit D} {token : String}
    (hmatch : hit.row.templ.match? token = some hit.sep) {value : Option String}
    (hvalue : hit.row.templ.IsSpacedName token → value.isSome = true) (place : Place) :
    hit.Answers place token value (hit.stepWith place token (value.getD "")) := by
  constructor
  · intro hname
    obtain ⟨v, rfl⟩ := Option.isSome_iff_exists.mp (hvalue hname)
    refine ⟨v, rfl, ?_⟩
    simp [stepWith, (awaitsValue_iff hmatch).mpr hname]
  · intro hname
    apply stepWith_of_not_awaitsValue
    exact Bool.eq_false_iff.mpr (mt (awaitsValue_iff hmatch).mp hname)

theorem Table.serves_of_isSome_iff {t : Table D} {token : String} {value : Option String}
    (h : value.isSome = true ↔ t.Awaits token) (place : Place) : t.Serves place token value where
  value_iff := h.trans t.awaits_iff
  unmatched hl := t.itemSteps_of_unmatched hl place value
  matched hl := by
    rw [t.itemSteps_of_matched hl, List.forall₂_map_right_iff, List.forall₂_same]
    intro hit hmem
    have hlookup := t.mem_lookup.mp hmem
    apply Hit.answers_stepWith hlookup.2
    intro hname
    exact h.mpr (t.awaits_iff.mpr ⟨hit.row, hlookup.1, hname⟩)

theorem Table.Serves.isSome_iff {t : Table D} {place : Place} {token : String}
    {value : Option String} (h : t.Serves place token value) :
    value.isSome = true ↔ t.Awaits token := h.value_iff.trans t.awaits_iff.symm

namespace Progress

variable {callback : Option (Callback D)} {t : Table D} {s s' : Progress D}

theorem exists_serves_of_takeOption {place : Place} {token : String} {rest rest' : List String}
    (h : s.takeOption callback t place token rest = .ok (s', rest')) :
    ∃ value, rest = value.toList ++ rest' ∧ t.Serves place token value ∧
      s.run callback (t.itemSteps (.option place token value)) = .ok s' := by
  by_cases hw : t.Awaits token
  · cases rest with
    | nil =>
      obtain ⟨now, hit, hits, hopt, _⟩ := t.optionSteps_of_awaits hw place
      rw [takeOption_nil hopt] at h
      exact absurd (by simp) (fail_not_mem_of_run_ok (ok_of_map_ok h).1 (.missingArgument token))
    | cons value rest =>
      rw [takeOption_of_awaits hw] at h
      obtain ⟨hrun, rfl⟩ := ok_of_map_ok h
      exact ⟨some value, rfl, t.serves_of_isSome_iff (by simp [hw]) place, hrun⟩
  · rw [takeOption_of_not_awaits hw] at h
    obtain ⟨hrun, rfl⟩ := ok_of_map_ok h
    exact ⟨none, rfl, t.serves_of_isSome_iff (by simp [hw]) place, hrun⟩

end Progress

/-- The fields of a group as options, each with the value that it has taken. -/
abbrev Options := List (String × Option String)

namespace Options

def values (options : Options) : List String := options.filterMap Prod.snd

def items (options : Options) : List Item :=
  options.map fun option => .option .group option.1 option.2

theorem values_cons (field : String) (value : Option String) (options : Options) :
    values ((field, value) :: options) = value.toList ++ options.values := by
  cases value <;> simp [values]

theorem items_cons (field : String) (value : Option String) (options : Options) :
    items ((field, value) :: options) = .option .group field value :: options.items := rfl

end Options

/-- The steps of the fields of a group, which may take some of the tokens, and of the tokens that
are left. -/
def Table.fieldSteps (t : Table D) (fields : List (Except Group.DecodeError String))
    (tokens : List String) : List (Step D) :=
  (t.groupSteps fields).1 ++ t.steps (t.groupSteps fields).2 tokens

theorem Table.fieldSteps_of_not_awaits {t : Table D} {field : String} (h : ¬ t.Awaits field)
    (fields : List (Except Group.DecodeError String)) (tokens : List String) :
    t.fieldSteps (.ok field :: fields) tokens =
      t.itemSteps (.option .group field none) ++ t.fieldSteps fields tokens := by
  rw [fieldSteps, t.groupSteps_of_not_awaits h, List.append_assoc]
  rfl

theorem Table.fieldSteps_of_awaits {t : Table D} {field : String} (h : t.Awaits field)
    (fields : List (Except Group.DecodeError String)) (value : String) (tokens : List String) :
    t.fieldSteps (.ok field :: fields) (value :: tokens) =
      t.itemSteps (.option .group field (some value)) ++ t.fieldSteps fields tokens :=
  (t.groupSteps_of_awaits h fields).2 value tokens

theorem Table.fieldSteps_nil {t : Table D} {field : String} (h : t.Awaits field)
    (fields : List (Except Group.DecodeError String)) : t.fieldSteps (.ok field :: fields) [] =
      (t.optionSteps .group field).1 ++ [.fail (.missingArgument field)] := by
  obtain ⟨now, hit, hits, hopt, _⟩ := t.optionSteps_of_awaits h .group
  simp [fieldSteps, groupSteps, hopt, steps, close]

/-- The fields of a group are these options, and each of them is served. -/
structure Table.ServesFields (t : Table D) (fields : List (Except Group.DecodeError String))
    (options : Options) : Prop where
  fields_eq : fields = options.map fun option => .ok option.1
  serves : ∀ option ∈ options, t.Serves .group option.1 option.2

theorem Table.ServesFields.nil (t : Table D) : t.ServesFields [] [] := ⟨rfl, by simp⟩

theorem Table.ServesFields.cons {t : Table D} {field : String} {value : Option String}
    {fields : List (Except Group.DecodeError String)} {options : Options}
    (h : t.Serves .group field value) (hfields : t.ServesFields fields options) :
    t.ServesFields (.ok field :: fields) ((field, value) :: options) where
  fields_eq := by simp [hfields.fields_eq]
  serves := by simpa [h] using hfields.serves

/-- A group has as many values as fields that are the bare name of some row. -/
theorem Table.ServesFields.length_values {t : Table D}
    {fields : List (Except Group.DecodeError String)} {options : Options}
    (h : t.ServesFields fields options) :
    options.values.length = options.countP fun option => t.Awaits option.1 := by
  rw [Options.values, List.length_filterMap_eq_countP]
  apply List.countP_congr
  intro option hmem
  simpa using (h.serves option hmem).isSome_iff

namespace Progress

variable {callback : Option (Callback D)} {t : Table D} {s s' : Progress D}

theorem exists_servesFields_of_takeFields {fields : List (Except Group.DecodeError String)}
    {rest rest' : List String} (h : s.takeFields callback t rest fields = .ok (s', rest')) :
    ∃ options : Options, rest = options.values ++ rest' ∧ t.ServesFields fields options ∧
      s.run callback (options.items.flatMap t.itemSteps) = .ok s' := by
  induction fields generalizing s rest with
  | nil =>
    cases h
    exact ⟨[], rfl, .nil t, rfl⟩
  | cons first fields ih =>
    cases first with
    | error e => cases h
    | ok field =>
      rw [takeFields] at h
      obtain ⟨⟨s₁, rest₁⟩, hoption, hlater⟩ := exists_of_bind_ok h
      obtain ⟨value, rfl, hserves, hrun⟩ := exists_serves_of_takeOption hoption
      obtain ⟨options, rfl, hfields, hrun'⟩ := ih hlater
      refine ⟨(field, value) :: options, ?_, hfields.cons hserves, ?_⟩
      · rw [Options.values_cons, List.append_assoc]
      · rw [Options.items_cons, List.flatMap_cons, run_append, hrun]
        exact hrun'

end Progress

/-- What a token of its own is there for, with the tokens after it that it takes. -/
inductive Use where
  | positional (token : String)
  | flag (token : String) (value : Option String)
  | attachedGroup (token : String) (options : Options)
  | group (token text : String) (options : Options)

def Use.tokens : Use → List String
  | .positional token => [token]
  | .flag token value => token :: value.toList
  | .attachedGroup token options => token :: options.values
  | .group token text options => token :: text :: options.values

def Use.items : Use → List Item
  | .positional token => [.positional token]
  | .flag token value => [.option .output token value]
  | .attachedGroup _ options | .group _ _ options => options.items

/-- The token has the shape of its use, and the options in it are served. -/
def Table.IsUse (t : Table D) : Use → Prop
  | .positional token => Shape.of token = .positional
  | .flag token value => Shape.of token = .flag ∧ t.Serves .output token value
  | .attachedGroup token options => ∃ text, text ≠ "" ∧ Shape.of token = .group text ∧
      t.ServesFields (Group.fields text) options
  | .group token text options => Shape.of token = .group "" ∧
      t.ServesFields (Group.fields text) options

namespace Progress

variable {callback : Option (Callback D)} {t : Table D} {s s' : Progress D}

theorem takeToken_of_separator (h : s.separator.isSome = true) (token : String)
    (rest : List String) : s.takeToken callback t token rest =
      (s.take callback (.offer .positional .output token)).map (·, rest) := by
  unfold takeToken
  exact if_pos h

theorem takeToken_separator {token : String} (hnone : s.separator = none)
    (hs : Shape.of token = .separator) (rest : List String) :
    s.takeToken callback t token rest = (s.take callback .separator).map (·, rest) := by
  simp [takeToken, hnone, hs]

/-- Before the separator, a token takes what its use says and nothing else. -/
theorem exists_use_of_takeToken {token : String} {rest rest' : List String}
    (hnone : s.separator = none) (hshape : Shape.of token ≠ .separator)
    (h : s.takeToken callback t token rest = .ok (s', rest')) :
    ∃ use, t.IsUse use ∧ token :: rest = use.tokens ++ rest' ∧
      s.run callback (use.items.flatMap t.itemSteps) = .ok s' := by
  unfold takeToken at h
  rw [if_neg (by simp [hnone])] at h
  cases hs : Shape.of token with
  | separator => exact absurd hs hshape
  | positional =>
    simp only [hs] at h
    obtain ⟨hoffer, rfl⟩ := ok_of_map_ok h
    exact ⟨.positional token, hs, rfl, (run_singleton callback s _).trans hoffer⟩
  | flag =>
    simp only [hs] at h
    obtain ⟨value, rfl, hserves, hrun⟩ := exists_serves_of_takeOption h
    exact ⟨.flag token value, ⟨hs, hserves⟩, rfl, by simpa [Use.items] using hrun⟩
  | group text =>
    simp only [hs] at h
    split at h
    next htext =>
      subst htext
      cases rest with
      | nil => cases h
      | cons text rest =>
        -- The group is the next token, and its fields may take more of those after it.
        obtain ⟨options, rfl, hfields, hrun⟩ := exists_servesFields_of_takeFields h
        exact ⟨.group token text options, ⟨hs, hfields⟩, rfl, hrun⟩
    next htext =>
      obtain ⟨options, rfl, hfields, hrun⟩ := exists_servesFields_of_takeFields h
      exact ⟨.attachedGroup token options, ⟨text, htext, hs, hfields⟩, rfl, hrun⟩

/-- Only the separator marks a separator. -/
theorem separator_of_takeToken {token : String} {rest rest' : List String}
    (hnone : s.separator = none) (hshape : Shape.of token ≠ .separator)
    (h : s.takeToken callback t token rest = .ok (s', rest')) : s'.separator = none := by
  obtain ⟨use, _, _, hrun⟩ := exists_use_of_takeToken hnone hshape h
  obtain ⟨_, _, _, hmark⟩ :=
    exists_turns_of_run hrun (t.separator_not_mem_flatMap_itemSteps use.items)
  exact hmark.trans hnone

/-- Whatever a token takes, the tokens that are left are the last of those after it. -/
theorem suffix_of_takeToken {token : String} {rest rest' : List String}
    (h : s.takeToken callback t token rest = .ok (s', rest')) : rest' <:+ rest := by
  cases hmark : s.separator with
  | some mark =>
    rw [takeToken_of_separator (by simp [hmark])] at h
    rw [(ok_of_map_ok h).2]
  | none =>
    by_cases hs : Shape.of token = .separator
    · rw [takeToken_separator hmark hs] at h
      rw [(ok_of_map_ok h).2]
    · obtain ⟨use, _, htokens, _⟩ := exists_use_of_takeToken hmark hs h
      cases use <;> cases htokens
      · exact List.suffix_rfl
      · exact List.suffix_append _ _
      · exact List.suffix_append _ _
      · exact (List.suffix_append _ _).trans (List.suffix_cons _ _)

def takeAll (callback : Option (Callback D)) (t : Table D) (s : Progress D) :
    List String → Except (Failure D) (Progress D)
  | [] => .ok s
  | token :: rest =>
      match _ : s.takeToken callback t token rest with
      | .error failure => .error failure
      | .ok (s, rest') => takeAll callback t s rest'
termination_by tokens => tokens.length
decreasing_by
  have hlength := (suffix_of_takeToken ‹_›).length_le
  simp only [List.length_cons]
  omega

theorem takeAll_cons (s : Progress D) (token : String) (rest : List String) :
    s.takeAll callback t (token :: rest) =
      (s.takeToken callback t token rest).bind fun (s, rest) => s.takeAll callback t rest := by
  rw [takeAll]
  split
  next failure h => rw [h]; rfl
  next s rest h => rw [h]; rfl

theorem takeAll_of_separator (h : s.separator.isSome = true) (tokens : List String) :
    s.takeAll callback t tokens = s.run callback (tokens.map (.offer .positional .output)) := by
  induction tokens generalizing s with
  | nil => rw [takeAll]; rfl
  | cons token tokens ih =>
    rw [takeAll_cons, takeToken_of_separator h, List.map_cons, run_cons]
    cases htake : s.take callback (.offer .positional .output token) with
    | error failure => rfl
    | ok s' =>
      obtain ⟨_, _, _, hmark⟩ := exists_turn_of_take htake (by simp)
      apply ih
      rwa [hmark]

theorem takeAll_separator {token : String} (hnone : s.separator = none)
    (hs : Shape.of token = .separator) (operands : List String) :
    s.takeAll callback t (token :: operands) =
      s.run callback (operandSteps (some operands)) := by
  rw [takeAll_cons, takeToken_separator hnone hs, operandSteps, run_cons]
  exact takeAll_of_separator rfl operands

/-- Runs the steps that follow a turn, which depend on the tokens that are left. -/
def runLater (callback : Option (Callback D)) (later : List String → List (Step D))
    (left : Progress D × List String) : Except (Failure D) (Progress D) :=
  left.1.run callback (later left.2)

theorem run_map_bind (s : Progress D) (steps : List (Step D)) (rest : List String)
    (later : List String → List (Step D)) :
    ((s.run callback steps).map (·, rest)).bind (runLater callback later) =
      s.run callback (steps ++ later rest) := by
  rw [run_append]
  cases s.run callback steps <;> rfl

theorem run_append_fail (s : Progress D) (steps later : List (Step D)) (e : ParseError) :
    s.run callback (steps ++ [.fail e] ++ later) = s.run callback (steps ++ [.fail e]) := by
  rw [run_append, run_append]
  cases s.run callback steps <;> rfl

theorem takeOption_bind {place : Place} {token : String} (s : Progress D) (rest : List String)
    (later : List String → List (Step D)) :
    (s.takeOption callback t place token rest).bind (runLater callback later) =
      s.run callback
        (if t.Awaits token then
          match rest with
          | [] => (t.optionSteps place token).1 ++ [.fail (.missingArgument token)]
          | value :: rest => t.itemSteps (.option place token (some value)) ++ later rest
        else t.itemSteps (.option place token none) ++ later rest) := by
  by_cases hw : t.Awaits token
  · rw [if_pos hw]
    cases rest with
    | cons value rest => rw [takeOption_of_awaits hw, run_map_bind]
    | nil =>
      obtain ⟨now, hit, hits, hopt, _⟩ := t.optionSteps_of_awaits hw place
      rw [takeOption_nil hopt, run_map_bind, run_append_fail, hopt]
  · rw [if_neg hw, takeOption_of_not_awaits hw, run_map_bind]

theorem takeFields_bind (s : Progress D) (fields : List (Except Group.DecodeError String))
    (rest : List String) :
    (s.takeFields callback t rest fields).bind (runLater callback (t.steps .options)) =
      s.run callback (t.fieldSteps fields rest) := by
  induction fields generalizing s rest with
  | nil => rfl
  | cons first fields ih =>
    cases first with
    | error e => rfl
    | ok field =>
      have hfirst : (s.takeFields callback t rest (.ok field :: fields)).bind
            (runLater callback (t.steps .options)) =
          (s.takeOption callback t .group field rest).bind
            (runLater callback (t.fieldSteps fields)) := by
        rw [takeFields]
        cases s.takeOption callback t .group field rest with
        | error failure => rfl
        | ok left => exact ih left.1 left.2
      rw [hfirst, takeOption_bind]
      by_cases hw : t.Awaits field
      · rw [if_pos hw]
        cases rest with
        | nil => rw [Table.fieldSteps_nil hw]
        | cons value rest => rw [Table.fieldSteps_of_awaits hw]
      · rw [if_neg hw, Table.fieldSteps_of_not_awaits hw]

theorem takeFlag_bind {token : String} (hs : Shape.of token = .flag) (s : Progress D)
    (rest : List String) :
    (s.takeOption callback t .output token rest).bind (runLater callback (t.steps .options)) =
      s.run callback (t.steps .options (token :: rest)) := by
  rw [takeOption_bind s rest (t.steps .options)]
  by_cases hw : t.Awaits token
  · rw [if_pos hw]
    cases rest with
    | cons value rest => rw [(t.feed_flag_of_awaits hs hw).2]
    | nil =>
      obtain ⟨now, hit, hits, hopt, _⟩ := t.optionSteps_of_awaits hw .output
      rw [t.steps_cons]
      simp [Table.feed, hs, hopt, Table.steps, Table.close]
  · rw [if_neg hw, t.steps_cons, t.feed_flag_of_not_awaits hs hw]

/-- Before the separator, the turn of a token is its steps. -/
theorem takeToken_bind {token : String} (hnone : s.separator = none)
    (hshape : Shape.of token ≠ .separator) (rest : List String) :
    (s.takeToken callback t token rest).bind (runLater callback (t.steps .options)) =
      s.run callback (t.steps .options (token :: rest)) := by
  unfold takeToken
  rw [if_neg (by simp [hnone])]
  cases hs : Shape.of token with
  | separator => exact absurd hs hshape
  | flag => exact takeFlag_bind hs s rest
  | positional =>
    rw [t.steps_cons, t.feed_positional hs, List.singleton_append, run_cons]
    simp only [take]
    cases s.offer callback .positional .output token <;> rfl
  | group text =>
    by_cases htext : text = ""
    · subst htext
      cases rest with
      | nil => rw [t.steps_cons, t.feed_group hs]; rfl
      | cons text rest =>
        rw [t.steps_group hs]
        exact takeFields_bind s (Group.fields text) rest
    · rw [t.steps_cons, t.feed_attachedGroup hs htext]
      simp only [if_neg htext]
      exact takeFields_bind s (Group.fields text) rest

/-- A loop over the tokens is a run over their steps. -/
theorem takeAll_eq_run (hnone : s.separator = none) (tokens : List String) :
    s.takeAll callback t tokens = s.run callback (t.steps .options tokens) := by
  -- A token takes some of those after it, so the induction is on the number of tokens.
  induction hn : tokens.length using Nat.strong_induction_on generalizing s tokens with
  | _ n ih =>
    cases tokens with
    | nil => rw [takeAll]; rfl
    | cons token rest =>
      by_cases hs : Shape.of token = .separator
      · rw [takeAll_separator hnone hs, t.steps_separator hs]
      rw [takeAll_cons, ← takeToken_bind hnone hs]
      cases htake : s.takeToken callback t token rest with
      | error failure => rfl
      | ok left =>
        obtain ⟨s₁, rest₁⟩ := left
        have hlength := (suffix_of_takeToken htake).length_le
        rw [List.length_cons] at hn
        exact ih rest₁.length (by omega) (separator_of_takeToken hnone hs htake) rest₁ rfl

end Progress

theorem Shape.eq_dashes_of_separator {token : String} (h : Shape.of token = .separator) :
    token = "--" := by
  apply String.toList_injective
  unfold Shape.of at h
  split at h
  next => cases h
  next hdashes => exact hdashes
  next => cases h
  next => cases h

def closing : Option (List String) → List String
  | none => []
  | some operands => "--" :: operands

namespace Progress

variable {callback : Option (Callback D)} {t : Table D} {s s' : Progress D}

/-- A loop that succeeds has used every token once, and has taken the steps of the uses. -/
theorem exists_uses_of_takeAll {tokens : List String} (hnone : s.separator = none)
    (h : s.takeAll callback t tokens = .ok s') :
    ∃ (uses : List Use) (operands : Option (List String)), (∀ use ∈ uses, t.IsUse use) ∧
      tokens = uses.flatMap Use.tokens ++ closing operands ∧
      s.run callback ((uses.flatMap Use.items).flatMap t.itemSteps ++ operandSteps operands) =
        .ok s' := by
  induction hn : tokens.length using Nat.strong_induction_on generalizing s tokens with
  | _ n ih =>
    cases tokens with
    | nil =>
      rw [takeAll] at h
      exact ⟨[], none, by simp, rfl, h⟩
    | cons token rest =>
      by_cases hs : Shape.of token = .separator
      · rw [takeAll_separator hnone hs] at h
        exact ⟨[], some rest, by simp, by simp [closing, Shape.eq_dashes_of_separator hs], h⟩
      rw [takeAll_cons] at h
      obtain ⟨⟨s₁, rest₁⟩, htake, hlater⟩ := exists_of_bind_ok h
      obtain ⟨use, huse, htokens, hrun⟩ := exists_use_of_takeToken hnone hs htake
      have hlength := (suffix_of_takeToken htake).length_le
      rw [List.length_cons] at hn
      obtain ⟨uses, operands, huses, rfl, hrun'⟩ :=
        ih rest₁.length (by omega) (separator_of_takeToken hnone hs htake) hlater rfl
      refine ⟨use :: uses, operands, by simpa [huse] using huses, by simp [htokens], ?_⟩
      rw [List.flatMap_cons, List.flatMap_append, List.append_assoc, run_append, hrun]
      exact hrun'

end Progress

/-- A parse is the loop that gives every token its turn. A turn that succeeds takes a token for
every option that some row awaits a value of, and hands it to all such rows; after a parse that
succeeds, every token has been used once, for what it is or for the value of an option before it. -/
theorem parse_takes_each_token {callback : Option (Callback D)} {t : Table D} {data : D}
    {program : String} {tokens : List String} {args : ArgVec}
    (hargs : args.toList = program :: tokens) :
    parse t callback data args = .ofRun ((Progress.start data program).takeAll callback t tokens) ∧
    (∀ (s s' : Progress D) place token rest rest',
      s.takeOption callback t place token rest = .ok (s', rest') →
      ∃ value : Option String, rest = value.toList ++ rest' ∧ t.Serves place token value ∧
        s.run callback (t.itemSteps (.option place token value)) = .ok s') ∧
    (∀ (s s' : Progress D) fields rest rest',
      s.takeFields callback t rest fields = .ok (s', rest') →
      ∃ options : Options, rest = options.values ++ rest' ∧ t.ServesFields fields options ∧
        options.values.length = (options.countP fun option => t.Awaits option.1) ∧
        s.run callback (options.items.flatMap t.itemSteps) = .ok s') ∧
    (∀ out, (parse t callback data args).result = .ok out →
      ∃ (uses : List Use) (operands : Option (List String)) (s : Progress D),
        (∀ use ∈ uses, t.IsUse use) ∧ tokens = uses.flatMap Use.tokens ++ closing operands ∧
        (Progress.start data program).run callback
          ((uses.flatMap Use.items).flatMap t.itemSteps ++ operandSteps operands) = .ok s ∧
        s.assemble = .ok out) := by
  have hloop : (Progress.start data program).takeAll callback t tokens =
      (Progress.start data program).run callback (t.steps .options tokens) :=
    Progress.takeAll_eq_run rfl tokens
  refine ⟨by rw [hloop, parse_eq_ofRun hargs], ?_, ?_, ?_⟩
  · intro s s' place token rest rest' h
    exact Progress.exists_serves_of_takeOption h
  · intro s s' fields rest rest' h
    obtain ⟨options, hrest, hfields, hrun⟩ := Progress.exists_servesFields_of_takeFields h
    exact ⟨options, hrest, hfields, hfields.length_values, hrun⟩
  · intro out h
    obtain ⟨s, hrun, hassemble, _⟩ := run_of_parse_ok hargs h
    obtain ⟨uses, operands, huses, htokens, hrun'⟩ :=
      Progress.exists_uses_of_takeAll rfl (hloop.trans hrun)
    exact ⟨uses, operands, s, huses, htokens, hrun', hassemble⟩

/-- Two rows share the value of `-p`, and a field of the group takes a token after the group. -/
theorem parse_takes_each_token_shared :
    let port : Field (Option UInt16) := .of fun _ x => some x
    let t := ((Table.empty.addField "-p %u" port).addKeep "-p %u").addKeep "uid %u"
    let tokens := ["-p", "22", "-o", "uid,ro", "7", "mnt"]
    let args := ArgVec.ofList ("prog" :: tokens)
    let out := ArgVec.ofList ["prog", "-o", "uid7,ro", "-p22", "mnt"]
    parse t none none args = ⟨some 22, [], .ok out⟩ ∧
      ∃ (uses : List Use) (operands : Option (List String)) (s : Progress (Option UInt16)),
        (∀ use ∈ uses, t.IsUse use) ∧ tokens = uses.flatMap Use.tokens ++ closing operands ∧
        (Progress.start none "prog").run none
          ((uses.flatMap Use.items).flatMap t.itemSteps ++ operandSteps operands) = .ok s ∧
        s.assemble = .ok out := by
  intro port t tokens args out
  have hparse : parse t none none args = ⟨some 22, [], .ok out⟩ := by cbv
  have hresult : (parse t none none args).result = .ok out := congrArg Outcome.result hparse
  exact ⟨hparse, (parse_takes_each_token rfl).2.2.2 out hresult⟩

end GroupedOptions
