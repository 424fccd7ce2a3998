import GroupedOptions.OptionSet
import GroupedOptions.Proofs.Emission

/-!
# What the steps of a parse record

The callback of an option set neither reads nor writes the output, so what a parse records is a
fold over its steps in which the output has no part. A step may record something, a count may
overflow, and a policy may refuse the token; what is recorded does not depend on the policies. The
main statement is that a parse with an option set is this fold, whatever the output.
-/
namespace GroupedOptions

theorem Policy.verdict_eq_error_iff {p : Policy} {complaint token : String} {cause : Halt String} :
    p.verdict complaint token = .error cause ↔
      p = .error ∧ cause = .error (complaint ++ ": " ++ token) := by
  cases p <;> simp [verdict, eq_comm]

namespace OptionSet

variable (s : OptionSet)

/-- What the policies say about a token under a key. -/
def verdict (key : Key) (token : String) : Except (Halt String) Disposition :=
  if key = .positional then s.positional.verdict "unexpected positional argument" token
  else if key = .unmatched then s.unmatched.verdict "unknown option" token
  else
    match s.flags.lookup key with
    | some flag => flag.policy.verdict "unexpected option" token
    | none => .ok .keep

/-- The record once a token has been handed over under a key, unless a count overflows. -/
def note (m : Matches) (key : Key) (token : String) : Option Matches :=
  if key = .positional then some (m.addPositional token)
  else if key = .unmatched then some m
  else
    match s.flags.lookup key with
    | some flag => (nextCount? m flag.name).map fun count => m.record flag.name (.uint count)
    | none => some m

/-- A turn of the callback ends in an overflow, or it makes its note and the policies have their
say, and the output is as it was. -/
theorem dispatch_cases (m : Matches) (token : String) (key : Key) (out : List String) :
    (s.note m key token = none ∧ s.dispatch m token key out = ⟨m, out, .error .overflow⟩) ∨
      ∃ m', s.note m key token = some m' ∧
        ((∃ d, s.verdict key token = .ok d ∧ s.dispatch m token key out = ⟨m', out, .ok d⟩) ∨
          ∃ cause data, s.verdict key token = .error cause ∧
            s.dispatch m token key out = ⟨data, out, .error cause⟩) := by
  unfold dispatch note verdict
  split
  · refine .inr ⟨_, rfl, ?_⟩
    split
    next d hd => exact .inl ⟨d, hd, rfl⟩
    next cause hcause => exact .inr ⟨cause, m, hcause, rfl⟩
  split
  · refine .inr ⟨m, rfl, ?_⟩
    cases s.unmatched.verdict "unknown option" token with
    | ok d => exact .inl ⟨d, rfl, rfl⟩
    | error cause => exact .inr ⟨cause, m, rfl, rfl⟩
  cases s.flags.lookup key with
  | none => exact .inr ⟨m, rfl, .inl ⟨.keep, rfl, rfl⟩⟩
  | some flag =>
    cases hcount : nextCount? m flag.name with
    | none => exact .inl ⟨by simp [hcount], by simp [hcount]⟩
    | some count =>
      let counted := m.record flag.name (.uint count)
      refine .inr ⟨counted, by simp [hcount, counted], ?_⟩
      cases hv : flag.policy.verdict "unexpected option" token with
      | ok d => exact .inl ⟨d, hv, by simp [hcount, hv, counted]⟩
      | error cause => exact .inr ⟨cause, counted, hv, by simp [hcount, hv, counted]⟩

theorem dispatch_appendsOnly : Callback.AppendsOnly s.dispatch := by
  intro m token key out
  obtain ⟨_, hreply⟩ | ⟨m', _, ⟨d, _, hreply⟩ | ⟨cause, data, _, hreply⟩⟩ :=
    s.dispatch_cases m token key out <;> rw [hreply]

/-- What a step records, or how it ends the parse. -/
def recordStep (m : Matches) : Step Matches → Except ParseError Matches
  | .offer key _ token =>
      if key = .discard ∨ key = .keep then .ok m
      else
        match s.note m key token with
        | none => .error (.callback .overflow)
        | some m =>
            match s.verdict key token with
            | .ok _ => .ok m
            | .error cause => .error (.callback cause)
  | .store field token v =>
      match field.store m v with
      | (m, none) => .ok m
      | (_, some e) => .error (.invalidConversion token e)
  | .separator => .ok m
  | .fail e => .error e

theorem take_dispatch (p : Progress Matches) (step : Step Matches) :
    ((p.take (some s.dispatch) step).map Progress.data).mapError Failure.error =
      s.recordStep p.data step := by
  cases step with
  | offer key place token =>
    simp only [Progress.take, Progress.offer, recordStep]
    by_cases hdiscard : key = .discard
    · rw [if_pos hdiscard, if_pos (.inl hdiscard)]
      rfl
    by_cases hkeep : key = .keep
    · rw [if_neg hdiscard, if_pos hkeep, if_pos (.inr hkeep), ← Progress.data_keep p place token]
      rfl
    rw [if_neg hdiscard, if_neg hkeep, if_neg (by simp [hdiscard, hkeep])]
    obtain ⟨hnote, hreply⟩ | ⟨m, hnote, ⟨d, hv, hreply⟩ | ⟨cause, data, hv, hreply⟩⟩ :=
      s.dispatch_cases p.data token key p.out
    · simp [hreply, hnote, Progress.fail, Except.map, Except.mapError]
    · cases d <;> simp [hreply, hnote, hv, Except.map, Except.mapError]
    · simp [hreply, hnote, hv, Progress.fail, Except.map, Except.mapError]
  | store field token v =>
    simp only [Progress.take, recordStep]
    cases field.store p.data v with
    | mk m error => cases error <;> simp [Progress.fail, Except.map, Except.mapError]
  | separator => rfl
  | fail e => rfl

theorem run_dispatch (p : Progress Matches) (steps : List (Step Matches)) :
    ((p.run (some s.dispatch) steps).map Progress.data).mapError Failure.error =
      steps.foldlM s.recordStep p.data := by
  induction steps generalizing p with
  | nil => rfl
  | cons step steps ih =>
    rw [List.foldlM_cons, ← s.take_dispatch]
    cases htake : p.take (some s.dispatch) step with
    | error failure => simp [Progress.run, htake, Except.map, Except.mapError, bind, Except.bind]
    | ok p' =>
      simpa [Progress.run, htake, Except.map, Except.mapError, bind, Except.bind] using ih p'

/-- What a parse records is what its steps record one after the other, and it fails as the first
step that fails. -/
theorem parse_map_fst (args : ArgVec) : (s.parse args).map Prod.fst =
    (s.table.steps .options args.toList.tail).foldlM s.recordStep .empty := by
  unfold OptionSet.parse GroupedOptions.parse
  cases hargs : args.toList with
  | nil => rfl
  | cons program tokens =>
    have hrun := s.run_dispatch (.start .empty program) (s.table.steps .options tokens)
    cases h : (Progress.start .empty program).run (some s.dispatch)
        (s.table.steps .options tokens) with
    | error failure =>
      rw [h] at hrun
      simp only [h, List.tail_cons]
      exact hrun
    | ok p =>
      rw [h] at hrun
      have happ : ∀ f, some s.dispatch = some f → f.AppendsOnly := by
        rintro f ⟨⟩
        exact s.dispatch_appendsOnly
      obtain ⟨out, hout, _⟩ := Progress.rebuilds happ h
      simp only [h, hout, List.tail_cons]
      exact hrun

variable {s}

theorem parse_eq_error_iff {args : ArgVec} {e : ParseError} : s.parse args = .error e ↔
    (s.table.steps .options args.toList.tail).foldlM s.recordStep .empty = .error e := by
  rw [← s.parse_map_fst]
  cases s.parse args <;> simp [Except.map]

theorem exists_parse_eq_ok_iff {args : ArgVec} {m : Matches} :
    (∃ out, s.parse args = .ok (m, out)) ↔
      (s.table.steps .options args.toList.tail).foldlM s.recordStep .empty = .ok m := by
  rw [← s.parse_map_fst]
  cases s.parse args with
  | error e => simp [Except.map]
  | ok result =>
    obtain ⟨m', out⟩ := result
    simp [Except.map]

end OptionSet

end GroupedOptions
