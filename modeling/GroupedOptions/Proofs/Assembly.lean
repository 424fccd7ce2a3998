import GroupedOptions.Proofs.Continuation
import GroupedOptions.Proofs.Flushing
import GroupedOptions.Proofs.Origin

/-!
# Vectors that cannot be put together

The group of the kept fields goes to a fixed place in the output, which a callback may have emptied
by then. The main statement is that there is no other way to fail over a position: no token gives
such a failure and no step makes one, so the parse fails in this way exactly if all tokens are
taken, some field is kept and nothing is left in the output, and it succeeds whenever all tokens
are taken otherwise.
-/
namespace GroupedOptions

variable {D : Type}

theorem Hit.eq_of_stored_eq_error {hit : Hit D} {token : String} {fixed : Int64} {e : ParseError}
    (h : hit.stored token fixed = .error e) :
    e = .badTemplate hit.row.templ ∨ ∃ cause, e = .invalidConversion token cause := by
  unfold stored at h
  split at h
  · cases h
  split at h
  · cases h
    exact .inl rfl
  split at h
  · cases h
  next cause _ =>
    cases h
    exact .inr ⟨cause, rfl⟩

theorem Hit.stepWith_ne_fail_invalidPosition (hit : Hit D) (place : Place) (token value : String)
    (cause : PositionError) : hit.stepWith place token value ≠ .fail (.invalidPosition cause) := by
  intro h
  unfold stepWith step at h
  split at h
  · cases h
  split at h
  · cases h
  next e hstored =>
    cases h
    obtain heq | ⟨_, heq⟩ := eq_of_stored_eq_error hstored <;> cases heq

theorem Table.invalidPosition_not_mem_steps (t : Table D) (tokens : List String)
    (cause : PositionError) : .fail (.invalidPosition cause) ∉ t.steps .options tokens := by
  intro hmem
  have hgives := gives_of_mem_steps hmem
  generalize hstep : Step.fail (.invalidPosition cause) = step at hgives
  cases hgives with
  | @hit hit place token value _ _ =>
    exact hit.stepWith_ne_fail_invalidPosition place token value cause hstep.symm
  | positional _ | unmatched _ _ | separator | invalidGroup _ | missingValue _ _
  | missingGroup _ => cases hstep

namespace Progress

variable {callback : Option (Callback D)} {s : Progress D} {failure : Failure D}
  {cause : PositionError}

theorem eq_fail_of_take {step : Step D} (h : s.take callback step = .error failure)
    (hcause : failure.error = .invalidPosition cause) : step = .fail (.invalidPosition cause) := by
  cases step with
  | offer key place token =>
    simp only [take, offer] at h
    split at h
    · cases h
    split at h
    · cases h
    split at h
    · cases h
    split at h
    · cases h
      cases hcause
    · cases h
    · cases h
  | store field token v =>
    simp only [take] at h
    split at h
    · cases h
    · cases h
      cases hcause
  | separator => cases h
  | fail e =>
    cases h
    cases hcause
    rfl

theorem fail_mem_of_run {steps : List (Step D)} (h : s.run callback steps = .error failure)
    (hcause : failure.error = .invalidPosition cause) :
    .fail (.invalidPosition cause) ∈ steps := by
  induction steps generalizing s with
  | nil => cases h
  | cons step steps ih =>
    rw [run] at h
    cases htake : s.take callback step with
    | ok s' =>
      rw [htake] at h
      exact List.mem_cons_of_mem _ (ih h)
    | error failure' =>
      rw [htake] at h
      cases h
      rw [eq_fail_of_take htake hcause]
      exact List.mem_cons_self

/-- The first insertion fails on an empty output, and on any other both have their places. -/
theorem assemble_eq_error_iff (s : Progress D) (cause : PositionError) :
    s.assemble = .error cause ↔ cause = ⟨1, 0⟩ ∧ s.kept ≠ [] ∧ s.out = [] := by
  cases hout : s.out with
  | cons program body => simp [assemble_eq hout]
  | nil =>
    unfold assemble
    cases hkept : s.kept with
    | nil => simp [Group.join]
    | cons field fields =>
      rw [Group.join_cons, hout]
      simp [ArgVec.insert, ArgVec.ofList, ArgVec.size, eq_comm]

theorem exists_assemble_eq_ok_iff (s : Progress D) :
    (∃ out, s.assemble = .ok out) ↔ s.kept = [] ∨ s.out ≠ [] := by
  have herror (cause : PositionError) := s.assemble_eq_error_iff cause
  cases hassemble : s.assemble with
  | ok out =>
    simp only [Except.ok.injEq, exists_eq', true_iff]
    refine or_iff_not_imp_left.mpr fun hkept hout => ?_
    cases hassemble.symm.trans ((herror ⟨1, 0⟩).mpr ⟨rfl, hkept, hout⟩)
  | error cause =>
    obtain ⟨_, hkept, hout⟩ := (herror cause).mp hassemble
    simp [hkept, hout]

end Progress

section Runs

variable {run : Except (Failure D) (Progress D)}

/-- A run without such a failure of its own fails over a position only at its end. -/
theorem Outcome.result_ofRun_eq_invalidPosition_iff (cause : PositionError)
    (h : ∀ failure, run = .error failure → failure.error ≠ .invalidPosition cause) :
    (ofRun run).result = .error (.invalidPosition cause) ↔
      cause = ⟨1, 0⟩ ∧ ∃ s, run = .ok s ∧ s.kept ≠ [] ∧ s.out = [] := by
  cases hrun : run with
  | error failure => simp [ofRun, h failure hrun]
  | ok s =>
    have hend : (ofRun (.ok s)).result = .error (.invalidPosition cause) ↔
        s.assemble = .error cause := by
      cases hassemble : s.assemble <;> simp [ofRun, hassemble, Except.mapError]
    rw [hend, s.assemble_eq_error_iff]
    simp

theorem Outcome.exists_result_ofRun_eq_ok_iff :
    (∃ out, (ofRun run).result = .ok out) ↔
      ∃ s, run = .ok s ∧ (s.kept = [] ∨ s.out ≠ []) := by
  cases run with
  | error failure => simp [ofRun]
  | ok s =>
    have hend (out : ArgVec) : (ofRun (.ok s)).result = .ok out ↔ s.assemble = .ok out := by
      cases hassemble : s.assemble <;> simp [ofRun, hassemble, Except.mapError]
    simp only [hend, s.exists_assemble_eq_ok_iff]
    simp

end Runs

/-- A parse fails over a position exactly if all tokens are taken without an error, some field is
kept for the group, and the output is empty in the end; the group was then to be put at 1 of 0
places. It succeeds exactly if the vector is empty, or all tokens are taken without an error and no
field is kept or something is in the output. -/
theorem result_eq_invalidPosition_iff (t : Table D) (callback : Option (Callback D)) (data : D)
    (args : ArgVec) :
    (∀ cause, (parse t callback data args).result = .error (.invalidPosition cause) ↔
      cause = ⟨1, 0⟩ ∧ ∃ program tokens fields before, args.toList = program :: tokens ∧
        Leaves t callback data program tokens fields before [] ∧ fields ≠ []) ∧
    ((∃ out, (parse t callback data args).result = .ok out) ↔
      args.toList = [] ∨ ∃ program tokens fields before last, args.toList = program :: tokens ∧
        Leaves t callback data program tokens fields before last ∧
        (fields = [] ∨ last ≠ [])) := by
  cases hargs : args.toList with
  | nil =>
    have hparse : (parse t callback data args).result = .ok .empty := by simp [parse, hargs]
    simp [hparse]
  | cons program tokens =>
    rw [parse_eq_ofRun hargs]
    constructor
    · intro cause
      -- No step fails over a position, so it is the end of the run that does.
      rw [Outcome.result_ofRun_eq_invalidPosition_iff cause fun failure hrun hcause =>
        t.invalidPosition_not_mem_steps tokens cause (Progress.fail_mem_of_run hrun hcause)]
      refine and_congr_right' ⟨?_, ?_⟩
      · rintro ⟨s, hrun, hkept, hout⟩
        obtain ⟨before, hleaves⟩ := Progress.exists_leaves_of_run hrun
        rw [hout] at hleaves
        exact ⟨program, tokens, s.kept, before, rfl, hleaves, hkept⟩
      · rintro ⟨_, _, fields, before, heq, hleaves, hne⟩
        cases heq
        obtain ⟨s, hrun, rfl, hout, _⟩ := hleaves.exists_run
        exact ⟨s, hrun, hne, hout⟩
    · rw [Outcome.exists_result_ofRun_eq_ok_iff]
      constructor
      · rintro ⟨s, hrun, hfits⟩
        obtain ⟨before, hleaves⟩ := Progress.exists_leaves_of_run hrun
        exact .inr ⟨program, tokens, s.kept, before, s.out, rfl, hleaves, hfits⟩
      · rintro (hnil | ⟨_, _, fields, before, last, heq, hleaves, hfits⟩)
        · cases hnil
        cases heq
        obtain ⟨s, hrun, rfl, rfl, _⟩ := hleaves.exists_run
        exact ⟨s, hrun, hfits⟩

/-- A callback that empties the output leaves no place for the group of the field that it keeps. -/
example :
    (parse Table.empty (some emptyingCallback) 0 (.ofList ["prog", "-v", "-o", "ro"])).result =
      .error (.invalidPosition ⟨1, 0⟩) := by cbv

end GroupedOptions
