import GroupedOptions.Proofs.Emission

/-!
# Parses of longer vectors

What tokens mean does not depend on those after them, and the end of a vector adds nothing but the
failure of a group or a value that never came. So a parse that fails at a token fails there in
every longer vector, and a parse that succeeds before any separator is taken up where it stood.
-/
namespace GroupedOptions

variable {D : Type} {callback : Option (Callback D)}

namespace Progress

variable {s : Progress D} {failure : Failure D}

theorem run_append_of_error {steps : List (Step D)} (h : s.run callback steps = .error failure)
    (later : List (Step D)) : s.run callback (steps ++ later) = .error failure := by
  rw [run_append, h]
  rfl

/-- The end of a vector is fine, or it is where a token is missing. -/
theorem run_close (callback : Option (Callback D)) (s : Progress D) (cursor : Cursor D) :
    s.run callback (Table.close cursor) = .ok s ∨
      ∃ token, s.run callback (Table.close cursor) = s.fail (.missingArgument token) := by
  cases cursor with
  | options | operands => exact .inl rfl
  | awaitingGroup => exact .inr ⟨"-o", rfl⟩
  | awaitingValue token _ _ _ => exact .inr ⟨token, rfl⟩

/-- A failure that is no missing token comes before the end, and tokens after it change nothing. -/
theorem run_steps_append_of_error {t : Table D} {cursor : Cursor D} {tokens : List String}
    (h : s.run callback (t.steps cursor tokens) = .error failure)
    (hmissing : ∀ token, failure.error ≠ .missingArgument token) (rest : List String) :
    s.run callback (t.steps cursor (tokens ++ rest)) = .error failure := by
  rw [t.steps_append]
  apply run_append_of_error
  rw [Table.steps, run_append] at h
  cases hfeed : s.run callback (t.feedAll cursor tokens).1 with
  | error failure' => simpa [hfeed, Except.bind] using h
  | ok s' =>
    -- The failure would be one of the end, which a longer vector does not reach here.
    have hclose : s'.run callback (Table.close (t.feedAll cursor tokens).2) = .error failure := by
      simpa [hfeed, Except.bind] using h
    obtain hok | ⟨token, hfail⟩ := run_close callback s' (t.feedAll cursor tokens).2
    · cases hok.symm.trans hclose
    · cases hfail.symm.trans hclose
      exact absurd rfl (hmissing token)

end Progress

/-- What a parse leaves behind, by how the run of its steps ended. -/
def Outcome.ofRun : Except (Failure D) (Progress D) → Outcome D
  | .error failure => ⟨failure.data, failure.calls, .error failure.error⟩
  | .ok s => ⟨s.data, s.calls, s.assemble.mapError .invalidPosition⟩

theorem parse_eq_ofRun {t : Table D} {data : D} {program : String} {tokens : List String}
    {args : ArgVec} (hargs : args.toList = program :: tokens) :
    parse t callback data args =
      .ofRun ((Progress.start data program).run callback (t.steps .options tokens)) := by
  simp only [parse, hargs]
  cases (Progress.start data program).run callback (t.steps .options tokens) <;> rfl

/-- An error that the tokens up to it decide. A missing token may yet come, and the place of the
group is decided by the finished output. -/
def ParseError.IsFinal : ParseError → Prop
  | .invalidConversion _ _ | .badTemplate _ | .invalidGroup _ | .callback _ => True
  | .missingArgument _ | .invalidPosition _ => False

theorem ParseError.isFinal_or (e : ParseError) :
    e.IsFinal ∨ (∃ token, e = .missingArgument token) ∨ ∃ cause, e = .invalidPosition cause := by
  cases e <;> simp [IsFinal]

theorem run_of_parse_error {t : Table D} {data : D} {program : String} {tokens : List String}
    {args : ArgVec} {e : ParseError} (hargs : args.toList = program :: tokens)
    (h : (parse t callback data args).result = .error e) (he : e.IsFinal) :
    ∃ failure, failure.error = e ∧
      (Progress.start data program).run callback (t.steps .options tokens) = .error failure := by
  rw [parse_eq_ofRun hargs] at h
  cases hrun : (Progress.start data program).run callback (t.steps .options tokens) with
  | error failure =>
    rw [hrun] at h
    exact ⟨failure, Except.error.inj h, rfl⟩
  | ok s =>
    rw [hrun] at h
    simp only [Outcome.ofRun] at h
    cases ha : s.assemble with
    | ok out => simp [ha, Except.mapError] at h
    | error cause =>
      rw [ha] at h
      cases h
      cases he

/-- A parse that fails at one of its tokens leaves the same behind whatever tokens come after
them, so of the errors that steps run into only the one of a missing token can go away. -/
theorem parse_append_of_parse_error {t : Table D} {data : D} {args args' : ArgVec}
    {rest : List String} {e : ParseError} (h : (parse t callback data args).result = .error e)
    (happend : args'.toList = args.toList ++ rest) :
    (e.IsFinal → parse t callback data args' = parse t callback data args) ∧
      ((parse t callback data args').result ≠ .error e →
        (∃ token, e = .missingArgument token) ∨ ∃ cause, e = .invalidPosition cause) := by
  have hfinal : e.IsFinal → parse t callback data args' = parse t callback data args := by
    intro he
    cases hargs : args.toList with
    | nil => simp [parse, hargs] at h
    | cons program tokens =>
      obtain ⟨failure, rfl, hrun⟩ := run_of_parse_error hargs h he
      have hmissing : ∀ token, failure.error ≠ .missingArgument token := by
        intro token heq
        rw [heq] at he
        exact he
      rw [hargs, List.cons_append] at happend
      rw [parse_eq_ofRun hargs, parse_eq_ofRun happend, hrun,
        Progress.run_steps_append_of_error hrun hmissing]
  refine ⟨hfinal, fun hne => ?_⟩
  obtain he | hother := e.isFinal_or
  · rw [hfinal he] at hne
    exact absurd h hne
  · exact hother

theorem parse_append_of_parse_error_malformed :
    let size : Field (Nat × Option Int64) := .of fun d (x : Int64) => (d.1, some x)
    let t : Table (Nat × Option Int64) := ⟨[.forKey "-v" ⟨0⟩, .forField "-n=%d" size], 1⟩
    let counting : Callback (Nat × Option Int64) := fun d _ _ out =>
      ⟨(d.1 + 1, d.2), out, .ok .keep⟩
    let args := ArgVec.ofList ["prog", "-v", "-n=x"]
    let args' := ArgVec.ofList ["prog", "-v", "-n=x", "-n=5", "-v"]
    let port : Table Unit := Table.empty.addKeep "-p %s"
    ((parse t (some counting) (0, none) args).result =
        .error (.invalidConversion "-n=x" .malformed) ∧
      args'.toList = args.toList ++ ["-n=5", "-v"] ∧
      parse t (some counting) (0, none) args' = parse t (some counting) (0, none) args) ∧
    (parse port none () (.ofList ["prog", "-p"])).result = .error (.missingArgument "-p") ∧
      (parse port none () (.ofList ["prog", "-p", "8"])).result =
        .ok (.ofList ["prog", "-p8"]) := by
  intro size t counting args args' port
  have h : (parse t (some counting) (0, none) args).result =
      .error (.invalidConversion "-n=x" .malformed) := by cbv
  have happend : args'.toList = args.toList ++ ["-n=5", "-v"] := rfl
  exact ⟨⟨h, happend, (parse_append_of_parse_error h happend).1 trivial⟩, by cbv, by cbv⟩

namespace Table

def HasNoSeparator (t : Table D) (tokens : List String) : Prop :=
  .separator ∉ t.steps .options tokens

variable {t : Table D} {tokens : List String}

theorem Reads.hasNoSeparator_iff {items : List Item} {operands : Option (List String)}
    (h : t.Reads tokens items operands) : t.HasNoSeparator tokens ↔ operands = none := by
  have hitems : .separator ∉ items.flatMap t.itemSteps :=
    t.separator_not_mem_flatMap_itemSteps items
  rw [HasNoSeparator, h.steps_eq]
  cases operands <;> simp [operandSteps, hitems]

end Table

/-- A parse of any longer vector goes on from here with the tokens after `args`. -/
def Progress.Resumes (s : Progress D) (t : Table D) (callback : Option (Callback D)) (data : D)
    (args : ArgVec) : Prop :=
  ∀ (args' : ArgVec) (rest : List String), args'.toList = args.toList ++ rest →
    parse t callback data args' = .ofRun (s.run callback (t.steps .options rest))

theorem Progress.Resumes.parse_eq {s : Progress D} {t : Table D} {data : D} {args : ArgVec}
    (h : s.Resumes t callback data args) : parse t callback data args = .ofRun (.ok s) :=
  h args [] (List.append_nil _).symm

/-- A parse that succeeds without a separator leaves off where every longer one goes on. -/
theorem exists_resumes_of_parse_ok {t : Table D} {data : D} {args out : ArgVec}
    (hne : args.toList ≠ []) (h : (parse t callback data args).result = .ok out)
    (hsep : t.HasNoSeparator args.toList.tail) :
    ∃ program s, (Progress.start data program).run callback
        (t.steps .options args.toList.tail) = .ok s ∧ s.Resumes t callback data args := by
  obtain ⟨program, tokens, hargs⟩ := List.exists_cons_of_ne_nil hne
  obtain ⟨s, hrun, _, _⟩ := run_of_parse_ok hargs h
  obtain ⟨items, operands, hread⟩ := t.exists_reads tokens (Progress.fail_not_mem_of_run_ok hrun)
  rw [hargs, List.tail_cons] at hsep ⊢
  cases hread.hasNoSeparator_iff.mp hsep
  refine ⟨program, s, hrun, fun args' rest happend => ?_⟩
  rw [hargs, List.cons_append] at happend
  have hsteps : t.steps .options (tokens ++ rest) =
      t.steps .options tokens ++ t.steps .options rest := by
    rw [hread.steps_append, hread.steps_eq]
    simp [operandSteps]
  rw [parse_eq_ofRun happend, hsteps, Progress.run_append, hrun]
  rfl

end GroupedOptions
