import GroupedOptions.Proofs.Template.Match
import Mathlib.Data.List.TakeDrop
import Mathlib.Data.List.TakeWhile

/-!
# Readings of an argument vector

A reading says what every token after the program name is there for: a
positional argument, an option, the group that holds options, the value of an
option before it, the separator, or an operand after the separator. It is a
grammar over whole vectors, without the cursor that the parse moves over them.
The main statements are that the steps of a vector are those of its reading,
taken item by item, and that a vector whose steps hold no failure has one.
-/
namespace GroupedOptions

variable {D : Type}

/-- A positional argument before the separator, or an option, which is a flag or a decoded
field of a group; the value is the one that came in a token of its own. -/
inductive Item where
  | positional (token : String)
  | option (place : Place) (token : String) (value : Option String)
  deriving DecidableEq, Repr

namespace Table

variable (t : Table D)

/-- `ReadsFields fields tokens items rest`: the fields of a group are the items, and their
values are all that `tokens` holds before `rest`. -/
inductive ReadsFields : List (Except Group.DecodeError String) → List String → List Item →
    List String → Prop
  | nil {tokens} : ReadsFields [] tokens [] tokens
  | alone {field fields tokens items rest} : ¬ t.Awaits field →
      ReadsFields fields tokens items rest →
      ReadsFields (.ok field :: fields) tokens (.option .group field none :: items) rest
  | valued {field fields value tokens items rest} : t.Awaits field →
      ReadsFields fields tokens items rest →
      ReadsFields (.ok field :: fields) (value :: tokens)
        (.option .group field (some value) :: items) rest

/-- `Reads tokens items operands`: the tokens before the separator are the items, and the
operands are the tokens after the separator, if there is one. -/
inductive Reads : List String → List Item → Option (List String) → Prop
  | nil : Reads [] [] none
  | separator {token operands} : Shape.of token = .separator →
      Reads (token :: operands) [] (some operands)
  | positional {token tokens items operands} : Shape.of token = .positional →
      Reads tokens items operands → Reads (token :: tokens) (.positional token :: items) operands
  | flag {token tokens items operands} : Shape.of token = .flag → ¬ t.Awaits token →
      Reads tokens items operands →
      Reads (token :: tokens) (.option .output token none :: items) operands
  | valuedFlag {token value tokens items operands} : Shape.of token = .flag → t.Awaits token →
      Reads tokens items operands →
      Reads (token :: value :: tokens) (.option .output token (some value) :: items) operands
  | attachedGroup {token group tokens fields rest items operands} :
      Shape.of token = .group group → group ≠ "" →
      t.ReadsFields (Group.fields group) tokens fields rest → Reads rest items operands →
      Reads (token :: tokens) (fields ++ items) operands
  | group {token group tokens fields rest items operands} : Shape.of token = .group "" →
      t.ReadsFields (Group.fields group) tokens fields rest → Reads rest items operands →
      Reads (token :: group :: tokens) (fields ++ items) operands

/-- The steps of an item: every matching row has its turn in table order, and the rows that
await a value see the name with the value after it. -/
def itemSteps : Item → List (Step D)
  | .positional token => [.offer .positional .output token]
  | .option place token value =>
      match t.lookup token with
      | [] => [.offer .unmatched place token]
      | hits => hits.map fun h => h.stepWith place token (value.getD "")

end Table

/-- The steps of the separator and of the operands after it. -/
def operandSteps : Option (List String) → List (Step D)
  | none => []
  | some operands => .separator :: operands.map (.offer .positional .output)

theorem Hit.stepWith_of_not_awaitsValue {h : Hit D} {token : String}
    (hw : h.awaitsValue token = false) (place : Place) (value : String) :
    h.stepWith place token value = h.step place token := by
  simp [Hit.stepWith, hw]

namespace Table

variable (t : Table D)

theorem itemSteps_of_unmatched {token : String} (h : t.lookup token = []) (place : Place)
    (value : Option String) :
    t.itemSteps (.option place token value) = [.offer .unmatched place token] := by
  simp [itemSteps, h]

theorem itemSteps_of_matched {token : String} (h : t.lookup token ≠ []) (place : Place)
    (value : Option String) : t.itemSteps (.option place token value) =
      (t.lookup token).map fun hit => hit.stepWith place token (value.getD "") := by
  obtain ⟨hit, hits, hl⟩ := List.exists_cons_of_ne_nil h
  simp [itemSteps, hl]

theorem optionSteps_of_matched {token : String} (h : t.lookup token ≠ []) (place : Place) :
    t.optionSteps place token =
      (((t.lookup token).takeWhile fun hit => !hit.awaitsValue token).map
          fun hit => hit.step place token,
        (t.lookup token).dropWhile fun hit => !hit.awaitsValue token) := by
  obtain ⟨hit, hits, hl⟩ := List.exists_cons_of_ne_nil h
  simp [optionSteps, hl, List.span_eq_takeWhile_dropWhile]

theorem optionSteps_of_not_awaits {token : String} (h : ¬ t.Awaits token) (place : Place) :
    t.optionSteps place token = (t.itemSteps (.option place token none), []) := by
  have hw : ∀ hit ∈ t.lookup token, hit.awaitsValue token = false := by
    intro hit hmem
    exact Bool.eq_false_iff.mpr fun htrue => h ⟨hit, hmem, htrue⟩
  by_cases hl : t.lookup token = []
  · simp [optionSteps, itemSteps, hl]
  · rw [t.optionSteps_of_matched hl, t.itemSteps_of_matched hl,
      List.takeWhile_eq_self_iff.mpr fun hit hmem => by simp [hw hit hmem],
      List.dropWhile_eq_nil_iff.mpr fun hit hmem => by simp [hw hit hmem]]
    refine congrArg (·, []) (List.map_congr_left fun hit hmem => ?_)
    rw [Hit.stepWith_of_not_awaitsValue (hw hit hmem)]

/-- The rows before the first that awaits a value do not look at it. -/
theorem optionSteps_of_awaits {token : String} (h : t.Awaits token) (place : Place) :
    ∃ now hit hits, t.optionSteps place token = (now, hit :: hits) ∧
      ∀ value, now ++ (hit :: hits).map (fun h => h.stepWith place token value) =
        t.itemSteps (.option place token (some value)) := by
  obtain ⟨first, hmem, hfirst⟩ := h
  have hl : t.lookup token ≠ [] := List.ne_nil_of_mem hmem
  have hne : (t.lookup token).dropWhile (fun h => !h.awaitsValue token) ≠ [] := by
    rw [Ne, List.dropWhile_eq_nil_iff]
    intro hall
    simpa [hfirst] using hall first hmem
  obtain ⟨hit, hits, hdrop⟩ := List.exists_cons_of_ne_nil hne
  refine ⟨_, hit, hits, by rw [t.optionSteps_of_matched hl, hdrop], fun value => ?_⟩
  have hnow : ((t.lookup token).takeWhile fun h => !h.awaitsValue token).map
        (fun h => h.step place token) =
      ((t.lookup token).takeWhile fun h => !h.awaitsValue token).map
        fun h => h.stepWith place token value := by
    refine List.map_congr_left fun y hy => ?_
    have hw := List.mem_takeWhile_imp hy
    rw [Hit.stepWith_of_not_awaitsValue (by simpa using hw)]
  rw [hnow, ← hdrop, ← List.map_append, List.takeWhile_append_dropWhile,
    t.itemSteps_of_matched hl]
  rfl

theorem steps_cons (cursor : Cursor D) (token : String) (tokens : List String) :
    t.steps cursor (token :: tokens) =
      (t.feed cursor token).1 ++ t.steps (t.feed cursor token).2 tokens := by
  simp [steps, feedAll]

theorem steps_nil (cursor : Cursor D) : t.steps cursor [] = close cursor := rfl

theorem groupSteps_of_not_awaits {field : String} (h : ¬ t.Awaits field)
    (fields : List (Except Group.DecodeError String)) :
    t.groupSteps (.ok field :: fields) =
      (t.itemSteps (.option .group field none) ++ (t.groupSteps fields).1,
        (t.groupSteps fields).2) := by
  simp [groupSteps, t.optionSteps_of_not_awaits h]

/-- A field that awaits a value holds up the fields after it until the next token. -/
theorem groupSteps_of_awaits {field : String} (h : t.Awaits field)
    (fields : List (Except Group.DecodeError String)) :
    (∃ now hits, t.groupSteps (.ok field :: fields) =
        (now, .awaitingValue field .group hits fields)) ∧
      ∀ value tokens, (t.groupSteps (.ok field :: fields)).1 ++
          t.steps (t.groupSteps (.ok field :: fields)).2 (value :: tokens) =
        t.itemSteps (.option .group field (some value)) ++
          ((t.groupSteps fields).1 ++ t.steps (t.groupSteps fields).2 tokens) := by
  obtain ⟨now, hit, hits, hopt, hvalue⟩ := t.optionSteps_of_awaits h .group
  have hgroup : t.groupSteps (.ok field :: fields) =
      (now, .awaitingValue field .group (hit :: hits) fields) := by
    simp [groupSteps, hopt]
  refine ⟨⟨now, hit :: hits, hgroup⟩, fun value tokens => ?_⟩
  rw [hgroup, ← hvalue value, steps_cons]
  simp [feed, List.append_assoc]

theorem ReadsFields.steps_eq {t : Table D} {fields : List (Except Group.DecodeError String)}
    {tokens rest : List String} {items : List Item}
    (h : t.ReadsFields fields tokens items rest) :
    (t.groupSteps fields).1 ++ t.steps (t.groupSteps fields).2 tokens =
      items.flatMap t.itemSteps ++ t.steps .options rest := by
  induction h with
  | nil => rfl
  | alone hw _ ih =>
    rw [t.groupSteps_of_not_awaits hw, List.append_assoc, ih]
    simp [List.append_assoc]
  | valued hw _ ih =>
    rw [(t.groupSteps_of_awaits hw _).2, ih]
    simp [List.append_assoc]

/-- What comes after the values of a group is left alone. -/
theorem ReadsFields.append {t : Table D} {fields : List (Except Group.DecodeError String)}
    {tokens rest : List String} {items : List Item} (h : t.ReadsFields fields tokens items rest)
    (more : List String) : t.ReadsFields fields (tokens ++ more) items (rest ++ more) := by
  induction h with
  | nil => exact .nil
  | alone hw _ ih => exact .alone hw ih
  | valued hw _ ih => exact .valued hw ih

/-- A group whose steps hold no failure is read to its end. -/
theorem exists_readsFields (fields : List (Except Group.DecodeError String))
    (tokens : List String)
    (h : ∀ e, .fail e ∉ (t.groupSteps fields).1 ++ t.steps (t.groupSteps fields).2 tokens) :
    ∃ items rest, t.ReadsFields fields tokens items rest ∧ rest.length ≤ tokens.length := by
  induction fields generalizing tokens with
  | nil => exact ⟨[], tokens, .nil, le_rfl⟩
  | cons first fields ih =>
    cases first with
    | error e => exact absurd (by simp [groupSteps]) (h (.invalidGroup e))
    | ok field =>
      by_cases hw : t.Awaits field
      · obtain ⟨⟨now, hits, hgroup⟩, hsteps⟩ := t.groupSteps_of_awaits hw fields
        cases tokens with
        | nil => exact absurd (by simp [hgroup, steps, close]) (h (.missingArgument field))
        | cons value tokens =>
          rw [hsteps] at h
          obtain ⟨items, rest, hread, hlen⟩ := ih tokens fun e he => h e (by simp [he])
          exact ⟨_, rest, .valued hw hread, hlen.trans (Nat.le_succ _)⟩
      · rw [t.groupSteps_of_not_awaits hw, List.append_assoc] at h
        obtain ⟨items, rest, hread, hlen⟩ := ih tokens fun e he => h e (by simp [he])
        exact ⟨_, rest, .alone hw hread, hlen⟩

theorem steps_operands (operands : List String) :
    t.steps .operands operands = operands.map (.offer .positional .output) := by
  induction operands with
  | nil => rfl
  | cons token tokens ih => simp [steps_cons, feed, ih]

theorem steps_separator {token : String} (h : Shape.of token = .separator)
    (operands : List String) :
    t.steps .options (token :: operands) = operandSteps (some operands) := by
  have hfeed : t.feed .options token = ([.separator], .operands) := by simp [feed, h]
  rw [steps_cons, hfeed, steps_operands]
  rfl

theorem feed_positional {token : String} (h : Shape.of token = .positional) :
    t.feed .options token = ([.offer .positional .output token], .options) := by
  simp [feed, h]

theorem feed_flag_of_not_awaits {token : String} (h : Shape.of token = .flag)
    (hw : ¬ t.Awaits token) :
    t.feed .options token = (t.itemSteps (.option .output token none), .options) := by
  simp [feed, h, t.optionSteps_of_not_awaits hw]

theorem feed_flag_of_awaits {token : String} (h : Shape.of token = .flag)
    (hw : t.Awaits token) :
    (∃ now hits, t.feed .options token = (now, .awaitingValue token .output hits [])) ∧
      ∀ value tokens, t.steps .options (token :: value :: tokens) =
        t.itemSteps (.option .output token (some value)) ++ t.steps .options tokens := by
  obtain ⟨now, hit, hits, hopt, hvalue⟩ := t.optionSteps_of_awaits hw .output
  have hfeed : t.feed .options token = (now, .awaitingValue token .output (hit :: hits) []) := by
    simp [feed, h, hopt]
  refine ⟨⟨now, hit :: hits, hfeed⟩, fun value tokens => ?_⟩
  rw [steps_cons, hfeed, ← hvalue value, steps_cons]
  simp [feed, groupSteps, List.append_assoc]

theorem feed_attachedGroup {token group : String} (h : Shape.of token = .group group)
    (hne : group ≠ "") : t.feed .options token = t.groupSteps (Group.fields group) := by
  simp [feed, h, hne]

theorem feed_group {token : String} (h : Shape.of token = .group "") :
    t.feed .options token = ([], .awaitingGroup) := by
  simp [feed, h]

theorem steps_group {token : String} (h : Shape.of token = .group "") (group : String)
    (tokens : List String) :
    t.steps .options (token :: group :: tokens) =
      (t.groupSteps (Group.fields group)).1 ++
        t.steps (t.groupSteps (Group.fields group)).2 tokens := by
  rw [steps_cons, t.feed_group h, steps_cons]
  rfl

/-- A vector must not end where a value or a group is awaited. -/
theorem missingArgument_mem_steps_of_awaits {token : String} (h : Shape.of token = .flag)
    (hw : t.Awaits token) : .fail (.missingArgument token) ∈ t.steps .options [token] := by
  obtain ⟨⟨now, hits, hfeed⟩, _⟩ := t.feed_flag_of_awaits h hw
  simp [steps_cons, steps_nil, hfeed, close]

theorem missingArgument_mem_steps_of_group {token : String} (h : Shape.of token = .group "") :
    .fail (.missingArgument "-o") ∈ t.steps .options [token] := by
  simp [steps_cons, steps_nil, t.feed_group h, close]

/-- A vector adds the steps of its reading, and the tokens after it are operands as well once it
has a separator. -/
theorem Reads.steps_append {t : Table D} {tokens : List String} {items : List Item}
    {operands : Option (List String)} (h : t.Reads tokens items operands) (more : List String) :
    t.steps .options (tokens ++ more) = items.flatMap t.itemSteps ++
      operands.elim (t.steps .options more) fun operands =>
        operandSteps (some (operands ++ more)) := by
  induction h with
  | nil => rfl
  | separator hs => exact t.steps_separator hs _
  | positional hs _ ih => simp [steps_cons, t.feed_positional hs, ih, itemSteps]
  | flag hs hw _ ih => simp [steps_cons, t.feed_flag_of_not_awaits hs hw, ih]
  | valuedFlag hs hw _ ih => simp [(t.feed_flag_of_awaits hs hw).2, ih]
  | attachedGroup hs hne hf _ ih =>
    rw [List.cons_append, steps_cons, t.feed_attachedGroup hs hne, (hf.append more).steps_eq, ih]
    simp [List.append_assoc]
  | group hs hf _ ih =>
    rw [List.cons_append, List.cons_append, t.steps_group hs, (hf.append more).steps_eq, ih]
    simp [List.append_assoc]

/-- The steps of a vector are the steps of its reading. -/
theorem Reads.steps_eq {t : Table D} {tokens : List String} {items : List Item}
    {operands : Option (List String)} (h : t.Reads tokens items operands) :
    t.steps .options tokens = items.flatMap t.itemSteps ++ operandSteps operands := by
  have hsteps := h.steps_append []
  rw [List.append_nil] at hsteps
  cases operands with
  | none => exact hsteps
  | some operands => rwa [Option.elim_some, List.append_nil] at hsteps

/-- A vector whose steps hold no failure has a reading. -/
theorem exists_reads (tokens : List String) (h : ∀ e, .fail e ∉ t.steps .options tokens) :
    ∃ items operands, t.Reads tokens items operands := by
  -- A group or a value takes several tokens at once, so the induction is on the length.
  induction hn : tokens.length using Nat.strong_induction_on generalizing tokens with
  | _ n ih =>
    have next : ∀ {steps rest}, (∀ e, .fail e ∉ steps ++ t.steps .options rest) →
        rest.length < n → ∃ items operands, t.Reads rest items operands :=
      fun h hlt => ih _ hlt _ (fun e he => h e (by simp [he])) rfl
    match tokens with
    | [] => exact ⟨[], none, .nil⟩
    | token :: tokens =>
      rw [List.length_cons] at hn
      cases hs : Shape.of token with
      | positional =>
        rw [steps_cons, t.feed_positional hs] at h
        obtain ⟨items, operands, hread⟩ := next h (by omega)
        exact ⟨_, operands, .positional hs hread⟩
      | separator => exact ⟨[], some tokens, .separator hs⟩
      | flag =>
        by_cases hw : t.Awaits token
        · match tokens with
          | [] => exact absurd (t.missingArgument_mem_steps_of_awaits hs hw) (h _)
          | value :: tokens =>
            rw [(t.feed_flag_of_awaits hs hw).2] at h
            rw [List.length_cons] at hn
            obtain ⟨items, operands, hread⟩ := next h (by omega)
            exact ⟨_, operands, .valuedFlag hs hw hread⟩
        · rw [steps_cons, t.feed_flag_of_not_awaits hs hw] at h
          obtain ⟨items, operands, hread⟩ := next h (by omega)
          exact ⟨_, operands, .flag hs hw hread⟩
      | group group =>
        by_cases hne : group = ""
        · subst hne
          match tokens with
          | [] => exact absurd (t.missingArgument_mem_steps_of_group hs) (h _)
          | group :: tokens =>
            rw [t.steps_group hs] at h
            rw [List.length_cons] at hn
            obtain ⟨fields, rest, hfields, hlen⟩ := t.exists_readsFields _ tokens h
            rw [hfields.steps_eq] at h
            obtain ⟨items, operands, hread⟩ := next h (by omega)
            exact ⟨_, operands, .group hs hfields hread⟩
        · rw [steps_cons, t.feed_attachedGroup hs hne] at h
          obtain ⟨fields, rest, hfields, hlen⟩ := t.exists_readsFields _ tokens h
          rw [hfields.steps_eq] at h
          obtain ⟨items, operands, hread⟩ := next h (by omega)
          exact ⟨_, operands, .attachedGroup hs hne hfields hread⟩

variable {t}

theorem ReadsFields.unique {fields : List (Except Group.DecodeError String)}
    {tokens rest rest' : List String} {items items' : List Item}
    (h : t.ReadsFields fields tokens items rest) (h' : t.ReadsFields fields tokens items' rest') :
    items = items' ∧ rest = rest' := by
  induction h generalizing items' rest' with
  | nil =>
    cases h'
    exact ⟨rfl, rfl⟩
  | alone hw _ ih =>
    cases h' with
    | alone _ h' =>
      obtain ⟨rfl, rfl⟩ := ih h'
      exact ⟨rfl, rfl⟩
    | valued hw' _ => exact absurd hw' hw
  | valued hw _ ih =>
    cases h' with
    | alone hw' _ => exact absurd hw hw'
    | valued _ h' =>
      obtain ⟨rfl, rfl⟩ := ih h'
      exact ⟨rfl, rfl⟩

/-- The shape of its first token decides how a vector is read on. -/
theorem Reads.unique {tokens : List String} {items items' : List Item}
    {operands operands' : Option (List String)}
    (h : t.Reads tokens items operands) (h' : t.Reads tokens items' operands') :
    items = items' ∧ operands = operands' := by
  -- Readings that begin otherwise disagree on the shape of the token or on what awaits a value.
  induction h generalizing items' operands' with
  | nil =>
    cases h'
    exact ⟨rfl, rfl⟩
  | separator hs => cases h' <;> simp_all
  | positional hs _ ih =>
    cases h' with
    | positional _ h' =>
      obtain ⟨rfl, rfl⟩ := ih h'
      exact ⟨rfl, rfl⟩
    | _ => simp_all
  | flag hs hw _ ih =>
    cases h' with
    | flag _ _ h' =>
      obtain ⟨rfl, rfl⟩ := ih h'
      exact ⟨rfl, rfl⟩
    | _ => simp_all
  | valuedFlag hs hw _ ih =>
    cases h' with
    | valuedFlag _ _ h' =>
      obtain ⟨rfl, rfl⟩ := ih h'
      exact ⟨rfl, rfl⟩
    | _ => simp_all
  | attachedGroup hs hne hf _ ih =>
    cases h' with
    | attachedGroup hs' _ hf' h' =>
      cases hs.symm.trans hs'
      obtain ⟨rfl, rfl⟩ := hf.unique hf'
      obtain ⟨rfl, rfl⟩ := ih h'
      exact ⟨rfl, rfl⟩
    | _ => simp_all
  | group hs hf _ ih =>
    cases h' with
    | group _ hf' h' =>
      obtain ⟨rfl, rfl⟩ := hf.unique hf'
      obtain ⟨rfl, rfl⟩ := ih h'
      exact ⟨rfl, rfl⟩
    | _ => simp_all

/-- What a reading knows of its items: positional arguments and flags have the shape of such
tokens, and an option has a value of its own exactly when some row awaits one. -/
def IsRead (t : Table D) : Item → Prop
  | .positional token => Shape.of token = .positional
  | .option place token value =>
      (place = .output → Shape.of token = .flag) ∧ (value.isSome = true ↔ t.Awaits token)

theorem IsRead.value_eq_none {place : Place} {token : String} {value : Option String}
    (h : t.IsRead (.option place token value)) (hw : ¬ t.Awaits token) : value = none :=
  Option.not_isSome_iff_eq_none.mp fun hsome => hw (h.2.mp hsome)

theorem ReadsFields.isRead {fields : List (Except Group.DecodeError String)}
    {tokens rest : List String} {items : List Item} (h : t.ReadsFields fields tokens items rest) :
    ∀ item ∈ items, t.IsRead item := by
  induction h with
  | nil => simp
  | alone hw _ ih => simpa [IsRead, hw] using ih
  | valued hw _ ih => simpa [IsRead, hw] using ih

theorem Reads.isRead {tokens : List String} {items : List Item} {operands : Option (List String)}
    (h : t.Reads tokens items operands) : ∀ item ∈ items, t.IsRead item := by
  induction h with
  | nil | separator _ => simp
  | positional hs _ ih => simpa [IsRead, hs] using ih
  | flag hs hw _ ih => simpa [IsRead, hs, hw] using ih
  | valuedFlag hs hw _ ih => simpa [IsRead, hs, hw] using ih
  | attachedGroup _ _ hf _ ih | group _ hf _ ih =>
    intro item hmem
    obtain hmem | hmem := List.mem_append.mp hmem
    · exact hf.isRead item hmem
    · exact ih item hmem

end Table

end GroupedOptions
