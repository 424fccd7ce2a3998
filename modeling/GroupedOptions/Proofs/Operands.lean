import GroupedOptions.Proofs.Continuation

/-!
# Tokens after the separator

After the separator every token is an operand, whatever it spells and whatever rows it matches. A
callback has one turn for each, and the operands that it keeps are all that the vector gains,
with the separator in front if there are any. This is the law for callbacks that leave the output
alone; it holds from any parse that has succeeded without a separator.
-/
namespace GroupedOptions

variable {D : Type}

def Callback.LeavesOutput (f : Callback D) : Prop :=
  ∀ data token key out, (f data token key out).out = out

theorem Callback.LeavesOutput.appendsOnly {f : Callback D} (h : f.LeavesOutput) :
    f.AppendsOnly := by
  intro data token key out
  rw [h]

/-- `Takes callback data out token kept calls data'`: from this data and output the operand
`token` is taken without an error. It is in `kept` if it is kept, the callback's turn is in
`calls` if there is a callback, and `data'` is left. -/
inductive Takes (callback : Option (Callback D)) (data : D) (out : List String) (token : String) :
    List String → List Call → D → Prop
  | unasked : callback = none → Takes callback data out token [token] [] data
  | kept {f data'} : callback = some f → f data token .positional out = ⟨data', out, .ok .keep⟩ →
      Takes callback data out token [token] [⟨token, .positional, out⟩] data'
  | dropped {f data'} : callback = some f →
      f data token .positional out = ⟨data', out, .ok .discard⟩ →
      Takes callback data out token [] [⟨token, .positional, out⟩] data'

/-- The same for operands that are taken one after the other, each that is kept being part of the
output for those after it. -/
inductive Accepts (callback : Option (Callback D)) :
    D → List String → List String → List String → List Call → D → Prop
  | nil {data out} : Accepts callback data out [] [] [] data
  | cons {data data' data'' out token operands kept kept' calls calls'} :
      Takes callback data out token kept calls data' →
      Accepts callback data' (out ++ kept) operands kept' calls' data'' →
      Accepts callback data out (token :: operands) (kept ++ kept') (calls ++ calls') data''

/-- The callback takes some of the operands and then has no verdict on one. -/
def Refuses (callback : Option (Callback D)) (data : D) (out operands : List String)
    (cause : Halt String) : Prop :=
  ∃ f before token after kept calls data', callback = some f ∧
    operands = before ++ token :: after ∧ Accepts callback data out before kept calls data' ∧
    (f data' token .positional (out ++ kept)).verdict = .error cause

/-- The law of the operands. A parse has left `outcome` behind and rebuilt `rebuilt`, and the same
vector with the separator and `operands` after it leaves `outcome'` behind: it fails as the
callback refuses an operand, or the callback has one turn more for each operand, and those it
keeps come after the separator at the end of the vector. -/
def ExtendsBy (callback : Option (Callback D)) (outcome : Outcome D)
    (rebuilt operands : List String) (outcome' : Outcome D) : Prop :=
  ∃ program fields tokens, rebuilt = program :: (groupArgs fields ++ tokens) ∧
    ((∃ kept calls,
        Accepts callback outcome.data (program :: (tokens ++ ["--"])) operands kept calls
          outcome'.data ∧
        calls.map (fun call => (call.token, call.key)) =
          (if callback.isSome then operands.map fun token => (token, .positional) else []) ∧
        outcome'.calls = outcome.calls ++ calls ∧
        outcome'.result = .ok (.ofList (rebuilt ++ separated kept))) ∨
      ∃ cause,
        Refuses callback outcome.data (program :: (tokens ++ ["--"])) operands cause ∧
        outcome'.result = .error (.callback cause))

variable {callback : Option (Callback D)}

theorem Takes.calls_eq {data data' : D} {out kept : List String} {token : String}
    {calls : List Call} (h : Takes callback data out token kept calls data') :
    calls.map (fun call => (call.token, call.key)) =
      if callback.isSome then [(token, .positional)] else [] := by
  cases h with
  | unasked hnone => simp [hnone]
  | kept hsome | dropped hsome => simp [hsome]

theorem Accepts.calls_eq {data data' : D} {out operands kept : List String} {calls : List Call}
    (h : Accepts callback data out operands kept calls data') :
    calls.map (fun call => (call.token, call.key)) =
      if callback.isSome then operands.map fun token => (token, .positional) else [] := by
  induction h with
  | nil => simp
  | cons htakes _ ih =>
    rw [List.map_append, htakes.calls_eq, ih]
    split <;> rfl

theorem Takes.refuses {data data' : D} {out operands kept : List String} {token : String}
    {cause : Halt String} {calls : List Call} (h : Takes callback data out token kept calls data')
    (hrest : Refuses callback data' (out ++ kept) operands cause) :
    Refuses callback data out (token :: operands) cause := by
  obtain ⟨f, before, token', after, kept', calls', data'', hf, rfl, haccepts, herror⟩ := hrest
  refine ⟨f, token :: before, token', after, kept ++ kept', calls ++ calls', data'', hf, rfl,
    .cons h haccepts, ?_⟩
  rwa [← List.append_assoc]

namespace Progress

/-- An operand is taken, and nothing but what it adds has changed, or the callback refuses it. -/
theorem offer_operand (hleaves : ∀ f, callback = some f → f.LeavesOutput) (s : Progress D)
    (token : String) :
    (∃ kept calls data', Takes callback s.data s.out token kept calls data' ∧
      s.offer callback .positional .output token =
        .ok { s with data := data', out := s.out ++ kept, calls := s.calls ++ calls }) ∨
    ∃ f cause failure, callback = some f ∧
      (f s.data token .positional s.out).verdict = .error cause ∧
      s.offer callback .positional .output token = .error failure ∧
      failure.error = .callback cause := by
  have hdiscard : Key.positional ≠ .discard := by decide
  have hkeep : Key.positional ≠ .keep := by decide
  cases callback with
  | none =>
    refine .inl ⟨[token], [], s.data, .unasked rfl, ?_⟩
    simp [offer, hdiscard, hkeep, keep]
  | some f =>
    -- The reply hands back the output that it was given.
    have hout := hleaves f rfl s.data token .positional s.out
    cases hreply : f s.data token .positional s.out with
    | mk data' out verdict =>
      rw [hreply] at hout
      cases hout
      cases verdict with
      | ok disposition =>
        cases disposition with
        | keep =>
          refine .inl ⟨[token], _, data', .kept rfl hreply, ?_⟩
          simp [offer, hdiscard, hkeep, hreply, keep]
        | discard =>
          refine .inl ⟨[], _, data', .dropped rfl hreply, ?_⟩
          simp [offer, hdiscard, hkeep, hreply]
      | error cause =>
        have hoffer : s.offer (some f) .positional .output token =
            fail { s with data := data', calls := s.calls ++ [⟨token, .positional, s.out⟩] }
              (.callback cause) := by
          simp [offer, hdiscard, hkeep, hreply, fail]
        exact .inr ⟨f, cause, _, rfl, by rw [hreply], hoffer, rfl⟩

theorem run_operands (hleaves : ∀ f, callback = some f → f.LeavesOutput) (s : Progress D)
    (operands : List String) :
    (∃ kept calls data', Accepts callback s.data s.out operands kept calls data' ∧
      s.run callback (operands.map (.offer .positional .output)) =
        .ok { s with data := data', out := s.out ++ kept, calls := s.calls ++ calls }) ∨
    ∃ cause failure, Refuses callback s.data s.out operands cause ∧
      s.run callback (operands.map (.offer .positional .output)) = .error failure ∧
      failure.error = .callback cause := by
  induction operands generalizing s with
  | nil => exact .inl ⟨[], [], s.data, .nil, by simp [run]⟩
  | cons token operands ih =>
    obtain ⟨kept, calls, data', htakes, hoffer⟩ |
        ⟨f, cause, failure, hf, hverdict, hoffer, herror⟩ := s.offer_operand hleaves token
    · have hrun : s.run callback ((token :: operands).map (.offer .positional .output)) =
          Progress.run callback
            { s with data := data', out := s.out ++ kept, calls := s.calls ++ calls }
            (operands.map (.offer .positional .output)) := by
        simp [run, take, hoffer]
      rw [hrun]
      obtain ⟨kept', calls', data'', haccepts, hrest⟩ |
          ⟨cause, failure, hrefuses, hrest, herror⟩ :=
        ih { s with data := data', out := s.out ++ kept, calls := s.calls ++ calls }
      · refine .inl ⟨kept ++ kept', calls ++ calls', data'', .cons htakes haccepts, ?_⟩
        rw [hrest, List.append_assoc, List.append_assoc]
      · exact .inr ⟨cause, failure, htakes.refuses hrefuses, hrest, herror⟩
    · refine .inr ⟨cause, failure, ?_, by simp [run, take, hoffer], herror⟩
      exact ⟨f, [], token, operands, [], [], s.data, hf, rfl, .nil, by simpa using hverdict⟩

/-- The separator and operands extend a run, whose output takes no part in how they are read. -/
theorem run_extendsBy (hleaves : ∀ f, callback = some f → f.LeavesOutput) {s : Progress D}
    {program : String} {tokens : List String} (hout : s.out = program :: tokens)
    (operands : List String) :
    ExtendsBy callback (.ofRun (.ok s)) (program :: (groupArgs s.kept ++ tokens)) operands
      (.ofRun (s.run callback (operandSteps (some operands)))) := by
  let s₁ : Progress D := { s with out := s.out ++ ["--"], separator := some (s.out.length + 1) }
  have hrun : s.run callback (operandSteps (some operands)) =
      s₁.run callback (operands.map (.offer .positional .output)) := rfl
  have hout₁ : s₁.out = program :: (tokens ++ ["--"]) := by simp [s₁, hout]
  have hmark₁ : s₁.separator = some (tokens.length + 2) := by simp [s₁, hout]
  refine ⟨program, s.kept, tokens, rfl, ?_⟩
  rw [hrun, ← hout₁]
  obtain ⟨kept, calls, data', haccepts, hlast⟩ | ⟨cause, failure, hrefuses, hlast, herror⟩ :=
    s₁.run_operands hleaves operands
  · left
    let s₂ : Progress D :=
      { s₁ with data := data', out := s₁.out ++ kept, calls := s₁.calls ++ calls }
    have hout₂ : s₂.out = program :: (tokens ++ "--" :: kept) := by simp [s₂, hout₁]
    have hassemble : s₂.assemble = .ok (.ofList (program ::
        (groupArgs s.kept ++ (tokens ++ separated kept)))) := assemble_of_separator hout₂ hmark₁
    rw [hlast]
    refine ⟨kept, calls, haccepts, haccepts.calls_eq, rfl, ?_⟩
    change s₂.assemble.mapError ParseError.invalidPosition = _
    rw [hassemble]
    simp [Except.mapError]
  · right
    rw [hlast]
    exact ⟨cause, hrefuses, congrArg Except.error herror⟩

end Progress

/-- The separator and operands extend a parse that has succeeded without a separator: they add to
what it made of the tokens before them, and change nothing of it. -/
theorem parse_append_separator {t : Table D} {data : D} {args args' out : ArgVec}
    {operands : List String} (hleaves : ∀ f, callback = some f → f.LeavesOutput)
    (hne : args.toList ≠ []) (h : (parse t callback data args).result = .ok out)
    (hsep : t.HasNoSeparator args.toList.tail)
    (happend : args'.toList = args.toList ++ "--" :: operands) :
    ExtendsBy callback (parse t callback data args) out.toList operands
      (parse t callback data args') := by
  obtain ⟨program, s, hrun, hresumes⟩ := exists_resumes_of_parse_ok hne h hsep
  obtain ⟨es, _, hout, _, hmark⟩ :=
    Progress.exists_trace_of_run (fun f hf => (hleaves f hf).appendsOnly) hrun hsep
  rw [hresumes.parse_eq] at h ⊢
  rw [hresumes args' _ happend, t.steps_separator rfl]
  have hassemble := Progress.assemble_of_separator_none hout hmark
  simp only [Outcome.ofRun, hassemble, Except.mapError, Except.ok.injEq] at h
  rw [← h]
  exact Progress.run_extendsBy hleaves hout operands

def pickyCallback : Callback Nat := fun n token _ out =>
  ⟨n + 1, out, .ok (if token = "drop" then .discard else .keep)⟩

theorem parse_append_separator_picky :
    let t : Table Nat := ⟨[.forKey "-p %s" ⟨0⟩, .forKey "-x" .discard], 1⟩
    let args := ArgVec.ofList ["prog", "-p", "--", "in"]
    let args' := ArgVec.ofList ["prog", "-p", "--", "in", "--", "-o", "drop", "--", "-x"]
    (∀ f, some pickyCallback = some f → f.LeavesOutput) ∧ args.toList ≠ [] ∧
      (parse t (some pickyCallback) 0 args).result = .ok (.ofList ["prog", "-p--", "in"]) ∧
      t.HasNoSeparator args.toList.tail ∧
      args'.toList = args.toList ++ "--" :: ["-o", "drop", "--", "-x"] ∧
      (parse t (some pickyCallback) 0 args').result =
        .ok (.ofList ["prog", "-p--", "in", "--", "-o", "--", "-x"]) ∧
      ExtendsBy (some pickyCallback) (parse t (some pickyCallback) 0 args) ["prog", "-p--", "in"]
        ["-o", "drop", "--", "-x"] (parse t (some pickyCallback) 0 args') := by
  intro t args args'
  have hleaves : ∀ f, some pickyCallback = some f → f.LeavesOutput := by
    rintro f ⟨⟩ data token key out
    rfl
  have hne : args.toList ≠ [] := List.cons_ne_nil _ _
  have h : (parse t (some pickyCallback) 0 args).result = .ok (.ofList ["prog", "-p--", "in"]) := by
    cbv
  have hread : t.Reads args.toList.tail
      [.option .output "-p" (some "--"), .positional "in"] none :=
    .valuedFlag rfl (by decide) (.positional rfl .nil)
  have hsep : t.HasNoSeparator args.toList.tail := hread.hasNoSeparator_iff.mpr rfl
  exact ⟨hleaves, hne, h, hsep, rfl, by cbv, parse_append_separator hleaves hne h hsep rfl⟩

end GroupedOptions
