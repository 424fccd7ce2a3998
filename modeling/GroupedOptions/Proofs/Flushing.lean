import GroupedOptions.Proofs.Emission

/-!
# Callbacks that rewrite the output

A callback may append to the output, insert into it or empty it, and what it leaves is all that the
next step finds there. The fields that are kept for the group are out of its reach until the parse
is done. The group is then put after the program name, and it is in the result unless it is taken
for the separator: the mark of the separator is a size, so the last token goes if the output has
that size again and the last token is spelled like a separator, even where it is the group.
-/
namespace GroupedOptions

variable {D : Type}

/-- `Turn callback data out step fields data' out'`: from this data and output the step is taken
without an error; it keeps `fields` for the group and leaves `data'` and `out'`. -/
inductive Turn (callback : Option (Callback D)) (data : D) (out : List String) :
    Step D → List String → D → List String → Prop
  | store {field token v data'} : field.store data v = (data', none) →
      Turn callback data out (.store field token v) [] data' out
  | separator : Turn callback data out .separator [] data (out ++ ["--"])
  | discard {place token} : Turn callback data out (.offer .discard place token) [] data out
  | keep {key place token} : key ≠ .discard → key = .keep ∨ callback = none →
      Turn callback data out (.offer key place token) (Emission.kept place token).fields data
        (out ++ (Emission.kept place token).output)
  | kept {f key place token data' out'} : callback = some f → key ≠ .discard → key ≠ .keep →
      f data token key out = ⟨data', out', .ok .keep⟩ →
      Turn callback data out (.offer key place token) (Emission.kept place token).fields data'
        (out' ++ (Emission.kept place token).output)
  | dropped {f key place token data' out'} : callback = some f → key ≠ .discard → key ≠ .keep →
      f data token key out = ⟨data', out', .ok .discard⟩ →
      Turn callback data out (.offer key place token) [] data' out'

/-- The same for steps that are taken one after the other. -/
inductive Turns (callback : Option (Callback D)) :
    D → List String → List (Step D) → List String → D → List String → Prop
  | nil {data out} : Turns callback data out [] [] data out
  | cons {data data' data'' out out' out'' step steps fields fields'} :
      Turn callback data out step fields data' out' →
      Turns callback data' out' steps fields' data'' out'' →
      Turns callback data out (step :: steps) (fields ++ fields') data'' out''

/-- From this data and the program name alone, all tokens are taken without an error. They keep
`fields` for the group; the output is `before` when the separator comes, if it does, and `last` at
the end. -/
def Leaves (t : Table D) (callback : Option (Callback D)) (data : D) (program : String)
    (tokens fields : List String) (before : Option (List String)) (last : List String) : Prop :=
  ∃ items operands data₁ out₁ data', t.Reads tokens items operands ∧
    Turns callback data [program] (items.flatMap t.itemSteps) fields data₁ out₁ ∧
    Turns callback data₁ out₁ (operandSteps operands) [] data' last ∧
    before = operands.map fun _ => out₁

variable {callback : Option (Callback D)}

namespace Progress

variable {s s' : Progress D}

theorem exists_turn_of_take {step : Step D} (h : s.take callback step = .ok s')
    (hsep : step ≠ .separator) :
    ∃ fields, Turn callback s.data s.out step fields s'.data s'.out ∧
      s'.kept = s.kept ++ fields ∧ s'.separator = s.separator := by
  cases step with
  | separator => exact absurd rfl hsep
  | fail error => cases h
  | store field token v =>
    obtain ⟨data, hstore, rfl⟩ := take_store_ok h
    exact ⟨[], .store hstore, by simp⟩
  | offer key place token =>
    obtain ⟨rfl, rfl⟩ | ⟨hdiscard, hkeep, rfl⟩ | ⟨f, hf, hdiscard, hkeep, hverdict⟩ :=
      offer_cases h
    · exact ⟨[], .discard, by simp⟩
    · exact ⟨(Emission.kept place token).fields, by simpa using .keep hdiscard hkeep, by simp⟩
    have hreply {d} (hd : (f s.data token key s.out).verdict = .ok d) : f s.data token key s.out =
        ⟨(s.afterCall f key token).data, (s.afterCall f key token).out, .ok d⟩ := by
      rw [← hd]
      rfl
    obtain ⟨hd, rfl⟩ | ⟨hd, rfl⟩ := hverdict
    · exact ⟨[], .dropped hf hdiscard hkeep (hreply hd), by simp [afterCall]⟩
    · refine ⟨(Emission.kept place token).fields, ?_, by simp [afterCall]⟩
      simpa using .kept hf hdiscard hkeep (hreply hd)

theorem exists_turns_of_run {steps : List (Step D)} (h : s.run callback steps = .ok s')
    (hsep : .separator ∉ steps) :
    ∃ fields, Turns callback s.data s.out steps fields s'.data s'.out ∧
      s'.kept = s.kept ++ fields ∧ s'.separator = s.separator := by
  induction steps generalizing s with
  | nil =>
    cases h
    exact ⟨[], .nil, by simp⟩
  | cons step steps ih =>
    obtain ⟨s₁, htake, hrun⟩ := run_cons_ok h
    obtain ⟨fields, hturn, hkept, hmark⟩ :=
      exists_turn_of_take htake fun heq => hsep (by simp [heq])
    obtain ⟨fields', hturns, hkept', hmark'⟩ := ih hrun fun hmem => hsep (by simp [hmem])
    exact ⟨fields ++ fields', .cons hturn hturns, by simp [hkept', hkept], hmark'.trans hmark⟩

end Progress

theorem Turn.take_eq {data data' : D} {out out' fields : List String} {step : Step D}
    (h : Turn callback data out step fields data' out') (hsep : step ≠ .separator)
    (kept : List String) (mark : Option Nat) (calls : List Call) :
    ∃ calls', Progress.take callback ⟨data, out, kept, mark, calls⟩ step =
      .ok ⟨data', out', kept ++ fields, mark, calls'⟩ := by
  cases h with
  | separator => exact absurd rfl hsep
  | store hstore => exact ⟨calls, by simp [Progress.take, hstore]⟩
  | discard => exact ⟨calls, by simp [Progress.take, Progress.offer]⟩
  | @keep key place token hdiscard hkeep =>
    have hoffer (s : Progress D) : s.offer callback key place token = .ok (s.keep place token) := by
      rcases hkeep with rfl | rfl
      · simp [Progress.offer, hdiscard]
      · simp [Progress.offer, hdiscard]
    refine ⟨calls, (hoffer _).trans ?_⟩
    cases place <;> simp [Progress.keep, Emission.kept]
  | @kept f key place token data' out' hf hdiscard hkeep hreply =>
    subst hf
    refine ⟨calls ++ [⟨token, key, out⟩], ?_⟩
    cases place <;>
      simp [Progress.take, Progress.offer, hdiscard, hkeep, hreply, Progress.keep, Emission.kept]
  | dropped hf hdiscard hkeep hreply =>
    subst hf
    exact ⟨_, by simp [Progress.take, Progress.offer, hdiscard, hkeep, hreply]; rfl⟩

theorem Turns.run_eq {data data' : D} {out out' fields : List String} {steps : List (Step D)}
    (h : Turns callback data out steps fields data' out') (hsep : .separator ∉ steps)
    (kept : List String) (mark : Option Nat) (calls : List Call) :
    ∃ calls', Progress.run callback ⟨data, out, kept, mark, calls⟩ steps =
      .ok ⟨data', out', kept ++ fields, mark, calls'⟩ := by
  induction h generalizing kept calls with
  | nil => exact ⟨calls, by simp [Progress.run]⟩
  | @cons _ _ _ _ _ _ _ _ fields _ hturn _ ih =>
    obtain ⟨calls₁, htake⟩ := hturn.take_eq (fun heq => hsep (by simp [heq])) kept mark calls
    obtain ⟨calls', hrun⟩ := ih (fun hmem => hsep (by simp [hmem])) (kept ++ fields) calls₁
    exact ⟨calls', by simpa [Progress.run, htake] using hrun⟩

theorem Turns.exists_cons {data data' : D} {out out' fields : List String} {step : Step D}
    {steps : List (Step D)} (h : Turns callback data out (step :: steps) fields data' out') :
    ∃ data₁ out₁ now later, Turn callback data out step now data₁ out₁ ∧
      Turns callback data₁ out₁ steps later data' out' ∧ fields = now ++ later := by
  cases h with
  | cons hturn hturns => exact ⟨_, _, _, _, hturn, hturns, rfl⟩

theorem Turns.fields_eq_nil {data data' : D} {out out' fields : List String}
    {steps : List (Step D)} (h : Turns callback data out steps fields data' out')
    (hout : ∀ step ∈ steps, ∃ key token, step = .offer key .output token) : fields = [] := by
  induction h with
  | nil => rfl
  | cons hturn _ ih =>
    obtain ⟨key, token, rfl⟩ := hout _ List.mem_cons_self
    rw [ih fun step hmem => hout step (by simp [hmem])]
    cases hturn <;> simp

theorem Progress.exists_leaves_of_run {t : Table D} {data : D} {program : String}
    {tokens : List String} {s : Progress D}
    (h : (Progress.start data program).run callback (t.steps .options tokens) = .ok s) :
    ∃ before, Leaves t callback data program tokens s.kept before s.out := by
  obtain ⟨items, operands, hread⟩ := t.exists_reads tokens (fail_not_mem_of_run_ok h)
  rw [hread.steps_eq] at h
  obtain ⟨s₁, hitems, hoperands⟩ := run_append_ok h
  obtain ⟨fields, hturns, hkept, _⟩ :=
    exists_turns_of_run hitems (t.separator_not_mem_flatMap_itemSteps items)
  simp only [start, List.nil_append] at hturns hkept
  refine ⟨operands.map fun _ => s₁.out, items, operands, s₁.data, s₁.out, s.data, hread, ?_⟩
  cases operands with
  | none =>
    cases hoperands
    exact ⟨hkept ▸ hturns, .nil, rfl⟩
  | some operands =>
    obtain ⟨s₂, hs₂, hoperands⟩ := run_cons_ok hoperands
    cases hs₂
    obtain ⟨fields', hturns', hkept', _⟩ := exists_turns_of_run hoperands (by simp)
    cases hturns'.fields_eq_nil (by simp)
    rw [List.append_nil] at hkept'
    refine ⟨hkept' ▸ hkept ▸ hturns, ?_, rfl⟩
    exact .cons .separator hturns'

theorem Leaves.exists_run {t : Table D} {data : D} {program : String}
    {tokens fields last : List String} {before : Option (List String)}
    (h : Leaves t callback data program tokens fields before last) :
    ∃ s, (Progress.start data program).run callback (t.steps .options tokens) = .ok s ∧
      s.kept = fields ∧ s.out = last ∧ s.separator = before.map (·.length + 1) := by
  obtain ⟨items, operands, data₁, out₁, data', hread, hitems, hoperands, rfl⟩ := h
  obtain ⟨calls, hrun⟩ :=
    hitems.run_eq (t.separator_not_mem_flatMap_itemSteps items) [] none []
  rw [hread.steps_eq, Progress.run_append, Progress.start, hrun, List.nil_append]
  cases operands with
  | none =>
    cases hoperands
    exact ⟨_, rfl, rfl, rfl, rfl⟩
  | some operands =>
    obtain ⟨_, _, _, later, hseparator, hrest, hnone⟩ := hoperands.exists_cons
    cases hseparator
    rw [List.nil_append] at hnone
    obtain ⟨calls', hrun'⟩ := hrest.run_eq (by simp) fields (some (out₁.length + 1)) calls
    exact ⟨_, hrun', by simp [← hnone], rfl, rfl⟩

theorem joined_eq_dashes_iff {fields : List String} (hne : fields ≠ []) :
    Group.joined fields = "--" ↔ fields = ["--"] := by
  constructor
  · intro h
    obtain ⟨field, rest, rfl⟩ := List.exists_cons_of_ne_nil hne
    have hfields := Group.fields_joined field rest
    have hdashes : Group.fields "--" = [.ok "--"] := Group.fields_escape "--"
    rw [h, hdashes] at hfields
    simpa using hfields.symm
  · rintro rfl
    decide

/-- Of a vector with a group after its first token, trimming takes the group itself if it is
spelled like the separator, ends the vector and has the size of the output there. -/
theorem Progress.getElem?_trim_group (first group : String) (rest : List String)
    (mark : Option Nat) :
    (trim (first :: "-o" :: group :: rest) mark)[1]? = some "-o" ∧
      ((trim (first :: "-o" :: group :: rest) mark)[2]? = some group ↔
        ¬ (group = "--" ∧ rest = [] ∧ mark = some 3)) := by
  unfold trim
  split
  next hmark =>
    cases rest with
    | nil => simp_all
    | cons x xs => simp
  next hmark =>
    refine ⟨rfl, ?_⟩
    simp only [List.getElem?_cons_succ, List.getElem?_cons_zero, true_iff]
    rintro ⟨rfl, rfl, rfl⟩
    exact hmark ⟨rfl, rfl⟩

/-- In a parse that succeeds, a group of kept fields is put after the program name and stays there,
unless its text is that of the separator, the output was empty when the separator came, and a single
token is in the output at the end: then the group is trimmed away in place of the separator. -/
theorem group_of_parse_ok {t : Table D} {data : D} {program : String} {tokens : List String}
    {args out : ArgVec} (hargs : args.toList = program :: tokens)
    (h : (parse t callback data args).result = .ok out) :
    (∃ fields before last, Leaves t callback data program tokens fields before last) ∧
      ∀ fields before last, Leaves t callback data program tokens fields before last →
        fields ≠ [] → out.toList[1]? = some "-o" ∧
          (out.toList[2]? = some (Group.joined fields) ↔
            ¬ (fields = ["--"] ∧ before = some [] ∧ last.length = 1)) := by
  obtain ⟨s, hrun, hassemble, _⟩ := run_of_parse_ok hargs h
  refine ⟨⟨s.kept, _, s.out, (Progress.exists_leaves_of_run hrun).choose_spec⟩, ?_⟩
  intro fields before last hleaves hne
  obtain ⟨s', hrun', rfl, rfl, hmark⟩ := hleaves.exists_run
  cases hrun.symm.trans hrun'
  obtain ⟨field, kept, hkept⟩ := List.exists_cons_of_ne_nil hne
  have hgroup : groupArgs s.kept = ["-o", Group.joined s.kept] := if_neg hne
  cases hout : s.out with
  | nil => simp [Progress.assemble, hkept, Group.join_cons, hout, ArgVec.insert, ArgVec.ofList,
      ArgVec.size] at hassemble
  | cons first rest =>
    rw [Progress.assemble_eq hout, hgroup, Except.ok.injEq] at hassemble
    subst hassemble
    -- The mark is moved by the two tokens of the group, so it is at 3 if the output was empty.
    have hempty : s.separator.map (· + 2) = some 3 ↔ before = some [] := by
      rw [hmark]
      cases before with
      | none => simp
      | some before => simp [List.length_eq_zero_iff]
    have hsingle : (first :: rest).length = 1 ↔ rest = [] := by simp [List.length_eq_zero_iff]
    obtain ⟨hfirst, hsecond⟩ := Progress.getElem?_trim_group first (Group.joined s.kept) rest
      (s.separator.map (· + 2))
    refine ⟨hfirst, hsecond.trans (not_congr ?_)⟩
    rw [joined_eq_dashes_iff hne, hempty, hsingle]
    exact and_congr_right fun _ => and_comm

def emptyingCallback : Callback Nat := fun n _ _ _ => ⟨n + 1, [], .ok .keep⟩

/-- The group stays where the callback empties the output before and after the separator. -/
theorem group_of_parse_ok_emptying :
    let t : Table Nat := Table.empty.addKeep "ro"
    let tokens := ["-o", "ro,a\\,b", "--", "x"]
    let args := ArgVec.ofList ("prog" :: tokens)
    args.toList = "prog" :: tokens ∧
      (parse t (some emptyingCallback) 0 args).result = .ok (.ofList ["x", "-o", "ro,a\\,b"]) ∧
      Leaves t (some emptyingCallback) 0 "prog" tokens ["ro", "a,b"] (some []) ["x"] ∧
      Group.joined ["ro", "a,b"] = "ro,a\\,b" ∧
      (ArgVec.ofList ["x", "-o", "ro,a\\,b"]).toList[2]? = some (Group.joined ["ro", "a,b"]) := by
  intro t tokens args
  have h : (parse t (some emptyingCallback) 0 args).result =
      .ok (.ofList ["x", "-o", "ro,a\\,b"]) := by cbv
  have hfields : t.ReadsFields (Group.fields "ro,a\\,b") ["--", "x"]
      [.option .group "ro" none, .option .group "a,b" none] ["--", "x"] := by
    have hdecoded : Group.fields (Group.joined ["ro", "a,b"]) = [.ok "ro", .ok "a,b"] :=
      Group.fields_joined "ro" ["a,b"]
    rw [show "ro,a\\,b" = Group.joined ["ro", "a,b"] by decide, hdecoded]
    exact .alone (by decide) (.alone (by decide) .nil)
  have hread : t.Reads tokens [.option .group "ro" none, .option .group "a,b" none] (some ["x"]) :=
    .group rfl hfields (.separator rfl)
  have hitems : Turns (some emptyingCallback) 0 ["prog"]
      ([.option .group "ro" none, .option .group "a,b" none].flatMap t.itemSteps) ["ro", "a,b"] 1
      [] :=
    .cons (.keep (by decide) (.inl rfl)) (.cons (.kept rfl (by decide) (by decide) rfl) .nil)
  have hoperands : Turns (some emptyingCallback) 1 [] (operandSteps (some ["x"])) [] 2 ["x"] :=
    .cons .separator (.cons (.kept rfl (by decide) (by decide) rfl) .nil)
  have hleaves : Leaves t (some emptyingCallback) 0 "prog" tokens ["ro", "a,b"] (some []) ["x"] :=
    ⟨_, _, _, _, _, hread, hitems, hoperands, rfl⟩
  obtain ⟨_, hgroup⟩ := group_of_parse_ok rfl h
  exact ⟨rfl, h, hleaves, by decide, (hgroup _ _ _ hleaves (by simp)).2.mpr (by simp)⟩

/-- A callback that empties the output loses the group of the field `--`: the separator stands where
the program name was, and the group is trimmed away in its place. -/
theorem group_lost_of_emptying :
    let tokens := ["-o", "--", "--"]
    Leaves Table.empty (some emptyingCallback) 0 "prog" tokens ["--"] (some []) ["--"] ∧
      (parse Table.empty (some emptyingCallback) 0 (.ofList ("prog" :: tokens))).result =
        .ok (.ofList ["--", "-o"]) ∧
      (ArgVec.ofList ["--", "-o"]).toList[2]? ≠ some (Group.joined ["--"]) := by
  intro tokens
  have hfields : Table.empty.ReadsFields (D := Nat) (Group.fields "--") ["--"]
      [.option .group "--" none] ["--"] := by
    rw [show Group.fields "--" = [.ok "--"] from Group.fields_escape "--"]
    exact .alone (by decide) .nil
  have hread : Table.empty.Reads (D := Nat) tokens [.option .group "--" none] (some []) :=
    .group rfl hfields (.separator rfl)
  have hitems : Turns (some emptyingCallback) 0 ["prog"]
      ([.option .group "--" none].flatMap Table.empty.itemSteps) ["--"] 1 [] :=
    .cons (.kept rfl (by decide) (by decide) rfl) .nil
  have hleaves :
      Leaves Table.empty (some emptyingCallback) 0 "prog" tokens ["--"] (some []) ["--"] :=
    ⟨_, _, _, _, _, hread, hitems, .cons .separator .nil, rfl⟩
  exact ⟨hleaves, by cbv, by decide⟩

end GroupedOptions
