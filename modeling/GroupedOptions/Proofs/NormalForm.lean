import GroupedOptions.Proofs.Emission

/-!
# Rebuilt vectors are read as they were written

Without a callback a step always emits the same, so a rebuilt vector depends on
the reading of its tokens alone. Read again, its group gives back its fields,
and its other tokens stay positional arguments, flags and operands. A table
that keeps every token once then has nothing to change, and the empty table is
one of those.
-/
namespace GroupedOptions

variable {D : Type}

/-- What a step emits where there is no callback. -/
def Step.emission : Step D → Emission
  | .offer key place token => if key = .discard then .nothing else .kept place token
  | .store _ _ _ => .nothing
  | .separator => ⟨["--"], []⟩
  | .fail _ => .nothing

theorem Emits.eq_emission {data data' : D} {out : List String} {step : Step D} {e : Emission}
    (h : Emits none data out step e data') : e = step.emission := by
  cases h with
  | store _ => rfl
  | separator => rfl
  | discard => simp [Step.emission]
  | keep hdiscard _ => simp [Step.emission, hdiscard]
  | kept hf => cases hf
  | dropped hf => cases hf

theorem Trace.eq_map_emission {data data' : D} {out : List String} {steps : List (Step D)}
    {es : List Emission} (h : Trace none data out steps es data') :
    es = steps.map Step.emission := by
  induction h with
  | nil => rfl
  | cons hemits _ ih => rw [List.map_cons, hemits.eq_emission, ih]

namespace Table

variable (t : Table D)

/-- The tokens that an item adds to the output. -/
def itemOutput (item : Item) : List String :=
  (t.itemSteps item).flatMap fun step => step.emission.output

/-- The fields that an item adds to the group. -/
def itemFields (item : Item) : List String :=
  (t.itemSteps item).flatMap fun step => step.emission.fields

end Table

/-- A vector of the given parts, as a parse rebuilds it. -/
def layout (program : String) (fields tokens operands : List String) : List String :=
  program :: (groupArgs fields ++ (tokens ++ separated operands))

theorem Step.emission_offer {key : Key} (h : key ≠ .discard) (place : Place) (token : String) :
    (Step.offer (D := D) key place token).emission = .kept place token := by
  simp [emission, h]

theorem output_emission_positional (token : String) :
    (Step.offer (D := D) .positional .output token).emission.output = [token] := by
  rw [Step.emission_offer (by decide)]
  rfl

theorem Rebuilds.eq_layout {t : Table D} {data data' : D} {program : String}
    {tokens out : List String} (h : Rebuilds t none data program tokens data' out) :
    ∃ items operands, t.Reads tokens items operands ∧
      out = layout program (items.flatMap t.itemFields) (items.flatMap t.itemOutput)
        (operands.getD []) := by
  obtain ⟨items, operands, before, after, data₁, hread, hbefore, hafter, rfl⟩ := h
  refine ⟨items, operands, hread, ?_⟩
  rw [hbefore.eq_map_emission, hafter.eq_map_emission]
  simp only [List.flatMap_map, List.flatMap_assoc, output_emission_positional,
    List.flatMap_singleton']
  rfl

/-- A step that is taken whatever the data. -/
def Step.Succeeds : Step D → Prop
  | .store field _ v => ∀ data, (field.store data v).2 = none
  | .offer _ _ _ => True
  | .separator => True
  | .fail _ => False

theorem Step.succeeds_of_mem_operandSteps {operands : Option (List String)} {step : Step D}
    (h : step ∈ operandSteps operands) : step.Succeeds := by
  cases operands with
  | none => cases h
  | some operands =>
    obtain rfl | h := List.mem_cons.mp h
    · trivial
    · obtain ⟨token, _, rfl⟩ := List.mem_map.mp h
      trivial

namespace Progress

theorem exists_take_of_succeeds {s : Progress D} {step : Step D} (h : step.Succeeds) :
    ∃ s', s.take none step = .ok s' := by
  cases step with
  | offer key place token =>
    simp only [take, offer]
    split
    · exact ⟨_, rfl⟩
    · split <;> exact ⟨_, rfl⟩
  | store field token v =>
    have hnone := h s.data
    cases hstore : field.store s.data v with
    | mk data error =>
      rw [hstore] at hnone
      cases hnone
      exact ⟨{ s with data := data }, by simp [take, hstore]⟩
  | separator => exact ⟨_, rfl⟩
  | fail error => cases h

theorem exists_run_of_succeeds {s : Progress D} {steps : List (Step D)}
    (h : ∀ step ∈ steps, step.Succeeds) : ∃ s', s.run none steps = .ok s' := by
  induction steps generalizing s with
  | nil => exact ⟨s, rfl⟩
  | cons step steps ih =>
    obtain ⟨s₁, hs₁⟩ := exists_take_of_succeeds (s := s) (h step List.mem_cons_self)
    obtain ⟨s', hs'⟩ := ih (s := s₁) fun x hx => h x (List.mem_cons_of_mem _ hx)
    exact ⟨s', by simp [run, hs₁, hs']⟩

end Progress

theorem parse_of_toList_eq_nil {t : Table D} {callback : Option (Callback D)} {data : D}
    {args : ArgVec} (h : args.toList = []) :
    parse t callback data args = ⟨data, [], .ok .empty⟩ := by
  simp [parse, h]

theorem layout_of_parse_ok {t : Table D} {data : D} {program : String} {tokens : List String}
    {args out : ArgVec} (hargs : args.toList = program :: tokens)
    (h : (parse t none data args).result = .ok out) :
    ∃ items operands, t.Reads tokens items operands ∧
      out = .ofList (layout program (items.flatMap t.itemFields) (items.flatMap t.itemOutput)
        (operands.getD [])) := by
  obtain ⟨s, hrun, hassemble, _⟩ := run_of_parse_ok hargs h
  obtain ⟨list, hlist, hrebuilds⟩ := Progress.rebuilds (by simp) hrun
  obtain ⟨items, operands, hread, rfl⟩ := hrebuilds.eq_layout
  cases hassemble.symm.trans hlist
  exact ⟨items, operands, hread, rfl⟩

theorem parse_eq_layout {t : Table D} {tokens : List String} {items : List Item}
    {operands : Option (List String)} (hread : t.Reads tokens items operands)
    (hsucceeds : ∀ item ∈ items, ∀ step ∈ t.itemSteps item, step.Succeeds) (program : String)
    (data : D) :
    (parse t none data (.ofList (program :: tokens))).result =
      .ok (.ofList (layout program (items.flatMap t.itemFields) (items.flatMap t.itemOutput)
        (operands.getD []))) := by
  have hsteps : ∀ step ∈ t.steps .options tokens, step.Succeeds := by
    intro step hmem
    rw [hread.steps_eq] at hmem
    obtain hmem | hmem := List.mem_append.mp hmem
    · obtain ⟨item, hitem, hstep⟩ := List.mem_flatMap.mp hmem
      exact hsucceeds item hitem step hstep
    · exact Step.succeeds_of_mem_operandSteps hmem
  obtain ⟨s, hrun⟩ := Progress.exists_run_of_succeeds (s := .start data program) hsteps
  obtain ⟨list, hlist, hrebuilds⟩ := Progress.rebuilds (by simp) hrun
  obtain ⟨items', operands', hread', rfl⟩ := hrebuilds.eq_layout
  obtain ⟨rfl, rfl⟩ := hread.unique hread'
  simp [parse, ArgVec.ofList, ArgVec.toList, hrun, hlist, Except.mapError]

/-- The item of a token that is a flag without a value of its own, or else positional. -/
def Item.ofToken (token : String) : Item :=
  if Shape.of token = .flag then .option .output token none else .positional token

/-- The items of a rebuilt vector whose fields and tokens are read one by one. -/
def layoutItems (fields tokens : List String) : List Item :=
  (fields.map fun f => .option .group f none) ++ tokens.map .ofToken

namespace Table

variable (t : Table D)

/-- A token that is read by itself, and as the same kind of item wherever it stands before the
separator. -/
def IsSettled (token : String) : Prop :=
  Shape.of token = .positional ∨ (Shape.of token = .flag ∧ ¬ t.Awaits token)

variable {t}

theorem reads_separated (operands : List String) :
    ∃ after, t.Reads (separated operands) [] after ∧ after.getD [] = operands := by
  cases operands with
  | nil => exact ⟨none, .nil, rfl⟩
  | cons x xs => exact ⟨some (x :: xs), .separator rfl, rfl⟩

theorem reads_append_of_isSettled {tokens rest : List String} {items : List Item}
    {operands : Option (List String)} (h : ∀ token ∈ tokens, t.IsSettled token)
    (hrest : t.Reads rest items operands) :
    t.Reads (tokens ++ rest) (tokens.map .ofToken ++ items) operands := by
  induction tokens with
  | nil => exact hrest
  | cons token tokens ih =>
    have hnext := ih fun x hx => h x (List.mem_cons_of_mem _ hx)
    obtain hs | ⟨hs, hw⟩ := h token List.mem_cons_self
    · simpa [Item.ofToken, hs] using Reads.positional hs hnext
    · simpa [Item.ofToken, hs] using Reads.flag hs hw hnext

theorem readsFields_of_not_awaits {fields : List String} (h : ∀ f ∈ fields, ¬ t.Awaits f)
    (tokens : List String) :
    t.ReadsFields (fields.map .ok) tokens (fields.map fun f => .option .group f none) tokens := by
  induction fields with
  | nil => exact .nil
  | cons f fs ih =>
    exact .alone (h f List.mem_cons_self) (ih fun x hx => h x (List.mem_cons_of_mem _ hx))

theorem reads_groupArgs {fields tokens : List String} {items : List Item}
    {operands : Option (List String)} (h : ∀ f ∈ fields, ¬ t.Awaits f)
    (hread : t.Reads tokens items operands) :
    t.Reads (groupArgs fields ++ tokens)
      ((fields.map fun f => .option .group f none) ++ items) operands := by
  cases fields with
  | nil => exact hread
  | cons f fs =>
    have hfields := readsFields_of_not_awaits h tokens
    rw [← Group.fields_joined] at hfields
    exact .group rfl hfields hread

theorem reads_layout {fields tokens : List String} (hfields : ∀ f ∈ fields, ¬ t.Awaits f)
    (htokens : ∀ token ∈ tokens, t.IsSettled token) (operands : List String) :
    ∃ after, t.Reads (groupArgs fields ++ (tokens ++ separated operands))
      (layoutItems fields tokens) after ∧ after.getD [] = operands := by
  obtain ⟨after, hafter, hoperands⟩ := reads_separated (t := t) operands
  have hread := reads_groupArgs hfields (reads_append_of_isSettled htokens hafter)
  rw [List.append_nil] at hread
  exact ⟨after, hread, hoperands⟩

/-- Every row keeps its tokens without asking the callback. -/
def KeepsOnly (t : Table D) : Prop := ∀ row ∈ t.rows, row.dest = .key .keep

/-- No token matches two rows. -/
def MatchesOnce (t : Table D) : Prop := ∀ token, (t.lookup token).length ≤ 1

theorem MatchesOnce.lookup_eq {token : String} {hit : Hit D} (honce : t.MatchesOnce)
    (h : hit ∈ t.lookup token) : t.lookup token = [hit] := by
  have hlen := honce token
  match hl : t.lookup token with
  | [] => simp [hl] at h
  | [only] =>
    rw [hl] at h
    rw [List.mem_singleton.mp h]
  | _ :: _ :: _ => simp [hl] at hlen

end Table

namespace Item

def place : Item → Place
  | .positional _ => .output
  | .option place _ _ => place

/-- The token of an item, with its value attached. -/
def text : Item → String
  | .positional token => token
  | .option _ token value => token ++ value.getD ""

@[simp] theorem place_positional (token : String) : (positional token).place = .output := rfl

@[simp] theorem text_positional (token : String) : (positional token).text = token := rfl

@[simp] theorem place_option (place : Place) (token : String) (value : Option String) :
    (option place token value).place = place := rfl

@[simp] theorem text_option (place : Place) (token : String) (value : Option String) :
    (option place token value).text = token ++ value.getD "" := rfl

@[simp] theorem place_ofToken (token : String) : (ofToken token).place = .output := by
  unfold ofToken
  split <;> rfl

@[simp] theorem text_ofToken (token : String) : (ofToken token).text = token := by
  unfold ofToken
  split <;> simp

end Item

theorem fields_layoutItems (fields tokens : List String) :
    (layoutItems fields tokens).flatMap (fun item => (Emission.kept item.place item.text).fields) =
      fields := by
  have hnil : tokens.flatMap (fun _ => ([] : List String)) = [] := by simp
  simp [layoutItems, List.flatMap_map, hnil]

theorem output_layoutItems (fields tokens : List String) :
    (layoutItems fields tokens).flatMap (fun item => (Emission.kept item.place item.text).output) =
      tokens := by
  have hnil : fields.flatMap (fun _ => ([] : List String)) = [] := by simp
  simp [layoutItems, List.flatMap_map, hnil]

theorem Hit.stepWith_of_keep {hit : Hit D} (h : hit.row.dest = .key .keep) (place : Place)
    (token value : String) : hit.stepWith place token value =
      .offer .keep place (if hit.awaitsValue token then token ++ value else token) := by
  simp [stepWith, step, h]

namespace Table

variable {t : Table D}

/-- Each item is offered once, under a key that keeps it. -/
theorem itemSteps_of_keepsOnly (hkeep : t.KeepsOnly) (honce : t.MatchesOnce) {item : Item}
    (hread : t.IsRead item) :
    ∃ key, key ≠ .discard ∧ t.itemSteps item = [.offer key item.place item.text] := by
  cases item with
  | positional token => exact ⟨.positional, by decide, rfl⟩
  | option place token value =>
    by_cases hl : t.lookup token = []
    · have hw : ¬ t.Awaits token := by simp [Awaits, hl]
      refine ⟨.unmatched, by decide, ?_⟩
      simp [t.itemSteps_of_unmatched hl, IsRead.value_eq_none hread hw]
    · obtain ⟨hit, hmem⟩ := List.exists_mem_of_ne_nil _ hl
      have hcons := honce.lookup_eq hmem
      have hrow := hkeep _ (t.mem_lookup.mp hmem).1
      refine ⟨.keep, by decide, ?_⟩
      rw [t.itemSteps_of_matched hl, hcons, List.map_singleton, Hit.stepWith_of_keep hrow]
      split
      · rfl
      next hw =>
        have hw' : ¬ t.Awaits token := by simpa [Awaits, hcons] using hw
        simp [IsRead.value_eq_none hread hw']

theorem itemOutput_of_keepsOnly (hkeep : t.KeepsOnly) (honce : t.MatchesOnce) {item : Item}
    (hread : t.IsRead item) : t.itemOutput item = (Emission.kept item.place item.text).output := by
  obtain ⟨key, hkey, hsteps⟩ := itemSteps_of_keepsOnly hkeep honce hread
  simp [itemOutput, hsteps, Step.emission_offer hkey]

theorem itemFields_of_keepsOnly (hkeep : t.KeepsOnly) (honce : t.MatchesOnce) {item : Item}
    (hread : t.IsRead item) : t.itemFields item = (Emission.kept item.place item.text).fields := by
  obtain ⟨key, hkey, hsteps⟩ := itemSteps_of_keepsOnly hkeep honce hread
  simp [itemFields, hsteps, Step.emission_offer hkey]

/-- Tokens that are settled and fields that await no value come out as they went in. -/
theorem parse_layout (hkeep : t.KeepsOnly) (honce : t.MatchesOnce) {fields tokens : List String}
    (hfields : ∀ f ∈ fields, ¬ t.Awaits f) (htokens : ∀ token ∈ tokens, t.IsSettled token)
    (program : String) (operands : List String) (data : D) :
    (parse t none data (.ofList (layout program fields tokens operands))).result =
      .ok (.ofList (layout program fields tokens operands)) := by
  obtain ⟨after, hread, hoperands⟩ := reads_layout hfields htokens operands
  have hitem := hread.isRead
  have hout := fun item hmem => itemOutput_of_keepsOnly hkeep honce (hitem item hmem)
  have hgroup := fun item hmem => itemFields_of_keepsOnly hkeep honce (hitem item hmem)
  have hsucceeds : ∀ item ∈ layoutItems fields tokens, ∀ step ∈ t.itemSteps item,
      step.Succeeds := by
    intro item hmem step hstep
    obtain ⟨key, _, hsteps⟩ := itemSteps_of_keepsOnly hkeep honce (hitem item hmem)
    rw [hsteps] at hstep
    cases List.mem_singleton.mp hstep
    trivial
  have hparse := parse_eq_layout hread hsucceeds program data
  rwa [hoperands, List.flatMap_congr hout, List.flatMap_congr hgroup, fields_layoutItems,
    output_layoutItems] at hparse

end Table

theorem Shape.of_eq_flag_iff {token : String} : Shape.of token = .flag ↔
    ∃ cs, token.toList = '-' :: cs ∧ cs.head? ≠ some 'o' ∧ cs ≠ ['-'] := by
  unfold Shape.of
  split
  next h => simp [h]
  next h => simp [h]
  next cs hgroup hsep h =>
    simp only [true_iff]
    refine ⟨cs, h, ?_, ?_⟩
    · intro hhead
      cases cs with
      | nil => cases hhead
      | cons c cs =>
        cases hhead
        exact hgroup cs rfl
    · rintro rfl
      exact hsep rfl
  next hgroup hsep hflag =>
    simp only [reduceCtorEq, false_iff]
    rintro ⟨cs, h, -, -⟩
    exact hflag cs h

/-- What is attached to a flag leaves it a flag, a lone dash apart. -/
theorem Shape.of_append_eq_flag {token : String} (h : Shape.of token = .flag)
    (hne : token ≠ "-") (value : String) : Shape.of (token ++ value) = .flag := by
  obtain ⟨cs, hcs, hhead, hdash⟩ := Shape.of_eq_flag_iff.mp h
  refine Shape.of_eq_flag_iff.mpr ⟨cs ++ value.toList, by simp [hcs], ?_, ?_⟩
  all_goals
    cases cs with
    | nil => exact absurd (String.toList_injective hcs) hne
    | cons c cs => simp_all

/-- A row that keeps a token keeps it with the value that it awaited. -/
theorem Hit.output_emission_stepWith {hit : Hit D} {place : Place} {token value x : String}
    (hx : x ∈ (hit.stepWith place token value).emission.output) :
    place = .output ∧ x = if hit.awaitsValue token then token ++ value else token := by
  unfold stepWith step at hx
  split at hx
  · simp only [Step.emission] at hx
    split at hx
    · cases hx
    · cases place with
      | output => exact ⟨rfl, List.mem_singleton.mp hx⟩
      | group => cases hx
  · split at hx <;> cases hx

theorem Table.shape_of_mem_itemOutput {t : Table D} (hdash : ¬ t.Awaits "-") {item : Item}
    (hread : t.IsRead item) {x : String} (hx : x ∈ t.itemOutput item) :
    Shape.of x = .positional ∨ Shape.of x = .flag := by
  obtain ⟨step, hstep, hx⟩ := List.mem_flatMap.mp hx
  cases item with
  | positional token =>
    cases List.mem_singleton.mp hstep
    rw [output_emission_positional] at hx
    cases List.mem_singleton.mp hx
    exact .inl hread
  | option place token value =>
    right
    by_cases hl : t.lookup token = []
    · rw [t.itemSteps_of_unmatched hl] at hstep
      cases List.mem_singleton.mp hstep
      rw [Step.emission_offer (by decide)] at hx
      cases place with
      | output =>
        cases List.mem_singleton.mp hx
        exact hread.1 rfl
      | group => cases hx
    · rw [t.itemSteps_of_matched hl] at hstep
      -- With its value attached a flag is still one, unless it is a lone dash.
      obtain ⟨hit, hmem, rfl⟩ := List.mem_map.mp hstep
      obtain ⟨rfl, rfl⟩ := Hit.output_emission_stepWith hx
      split
      next hw =>
        have hne : token ≠ "-" := by
          rintro rfl
          exact hdash ⟨hit, hmem, hw⟩
        exact Shape.of_append_eq_flag (hread.1 rfl) hne _
      next => exact hread.1 rfl

theorem Table.Reads.shape_of_mem_output {t : Table D} (hdash : ¬ t.Awaits "-")
    {tokens : List String} {items : List Item} {operands : Option (List String)}
    (h : t.Reads tokens items operands) :
    ∀ x ∈ items.flatMap t.itemOutput, Shape.of x = .positional ∨ Shape.of x = .flag := by
  intro x hx
  obtain ⟨item, hitem, hx⟩ := List.mem_flatMap.mp hx
  exact t.shape_of_mem_itemOutput hdash (h.isRead item hitem) hx

theorem Table.keepsOnly_empty : (Table.empty : Table D).KeepsOnly := by simp [KeepsOnly, empty]

theorem Table.matchesOnce_empty : (Table.empty : Table D).MatchesOnce := by
  simp [MatchesOnce, lookup, empty]

theorem Table.not_awaits_empty (token : String) : ¬ (Table.empty : Table D).Awaits token := by
  simp [Awaits, lookup, empty]

/-- The empty table takes every positional token and every flag by itself. -/
theorem Table.isSettled_empty {token : String}
    (h : Shape.of token = .positional ∨ Shape.of token = .flag) :
    (Table.empty : Table D).IsSettled token :=
  h.imp_right fun hflag => ⟨hflag, not_awaits_empty token⟩

/-- A vector has one layout of positional tokens and flags, since the empty table reads it back. -/
theorem layout_injective {program program' : String}
    {fields fields' tokens tokens' operands operands' : List String}
    (htokens : ∀ x ∈ tokens, Shape.of x = .positional ∨ Shape.of x = .flag)
    (htokens' : ∀ x ∈ tokens', Shape.of x = .positional ∨ Shape.of x = .flag)
    (h : layout program fields tokens operands = layout program' fields' tokens' operands') :
    fields = fields' ∧ tokens = tokens' ∧ operands = operands' := by
  let t : Table Unit := Table.empty
  have hawaits : ∀ xs : List String, ∀ f ∈ xs, ¬ t.Awaits f :=
    fun _ f _ => Table.not_awaits_empty f
  obtain ⟨after, hread, rfl⟩ := Table.reads_layout (hawaits fields)
    (fun x hx => Table.isSettled_empty (htokens x hx)) operands
  obtain ⟨after', hread', rfl⟩ := Table.reads_layout (hawaits fields')
    (fun x hx => Table.isSettled_empty (htokens' x hx)) operands'
  rw [(List.cons.inj h).2] at hread
  obtain ⟨hitems, rfl⟩ := hread.unique hread'
  refine ⟨?_, ?_, rfl⟩
  · rw [← fields_layoutItems fields tokens, hitems, fields_layoutItems]
  · rw [← output_layoutItems fields tokens, hitems, output_layoutItems]

/-- A parse without a callback rebuilds the vector in a form that a parse with the empty table
leaves as it is, unless a row takes a lone dash for the name of a value. -/
theorem parse_empty_of_parse_ok {E : Type} {t : Table D} {data : D} {args out : ArgVec}
    (hdash : ∀ row ∈ t.rows, ¬ row.templ.IsSpacedName "-")
    (h : (parse t none data args).result = .ok out) (data' : E) :
    (parse Table.empty none data' out).result = .ok out := by
  cases hargs : args.toList with
  | nil =>
    rw [parse_of_toList_eq_nil hargs] at h
    cases h
    rfl
  | cons program tokens =>
    obtain ⟨items, operands, hread, rfl⟩ := layout_of_parse_ok hargs h
    apply Table.parse_layout Table.keepsOnly_empty Table.matchesOnce_empty
    · exact fun f _ => Table.not_awaits_empty f
    · intro token hmem
      exact Table.isSettled_empty
        (hread.shape_of_mem_output (Table.not_awaits_iff.mpr hdash) token hmem)

theorem parse_empty_of_parse_ok_dashes :
    let t : Table Unit := (Table.empty.addKeep "-p %s").addDiscard "quiet"
    let args := ArgVec.ofList ["prog", "-p", "-x", "-o", "a\\,b,quiet,-", "in", "--", "--"]
    let out := ArgVec.ofList ["prog", "-o", "a\\,b,-", "-p-x", "in", "--", "--"]
    (∀ row ∈ t.rows, ¬ row.templ.IsSpacedName "-") ∧ (parse t none () args).result = .ok out ∧
      (parse (Table.empty : Table Unit) none () out).result = .ok out := by
  intro t args out
  have hdash : ∀ row ∈ t.rows, ¬ row.templ.IsSpacedName "-" :=
    Table.not_awaits_iff.mp (by decide)
  have h : (parse t none () args).result = .ok out := by cbv
  exact ⟨hdash, h, parse_empty_of_parse_ok hdash h ()⟩

end GroupedOptions
