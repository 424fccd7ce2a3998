import GroupedOptions.Proofs.Config.Compiled
import GroupedOptions.Proofs.OptionSet.Recording

/-!
# Policies and what is recorded

Of a policy only what it refuses matters for the record of a parse, and whether it keeps or
discards a token does not. Every option set records the same as the one that keeps whatever it does
not refuse. A set that refuses less records the same wherever the other one succeeds.
-/
namespace GroupedOptions

/-- The policy that refuses the same and keeps the rest. -/
def Policy.keeping : Policy → Policy
  | .error => .error
  | _ => .keep

theorem Policy.keeping_eq_error_iff {p : Policy} : p.keeping = .error ↔ p = .error := by
  cases p <;> simp [keeping]

theorem Policy.verdict_keeping (p : Policy) (complaint token : String) :
    p.keeping.verdict complaint token = (p.verdict complaint token).map fun _ => .keep := by
  cases p <;> rfl

/-- The declaration with its policy, if it has one, keeping what it does not refuse. -/
def OptionDecl.keeping : OptionDecl → OptionDecl
  | .flag t name policy => .flag t name policy.keeping
  | d => d

def Flag.keeping (flag : Flag) : Flag := { flag with policy := flag.policy.keeping }

namespace OptionSet

/-- The option set that refuses the same and keeps the rest. -/
def keeping (s : OptionSet) : OptionSet where
  table := s.table
  flags := s.flags.map fun e => (e.1, e.2.keeping)
  positional := s.positional.keeping
  unmatched := s.unmatched.keeping

theorem keeping_declare (s : OptionSet) (d : OptionDecl) :
    (s.declare d).map keeping = s.keeping.declare d.keeping := by
  cases d with
  | flag t name policy =>
    simp only [declare, OptionDecl.keeping, Option.map_map]
    cases hadd : s.table.addKey t.text with
    | none => simp [keeping, hadd]
    | some added =>
      simp [keeping, hadd, Flag.keeping, OptionDecl.name?, OptionDecl.explicitName?,
        OptionDecl.templ]
  | value _ _ | set _ _ _ | toggle _ _ | keep _ | discard _ => rfl

/-- What goes with every declaration goes with all of them. -/
theorem map_foldlM_declare {f : OptionSet → OptionSet} {g : OptionDecl → OptionDecl}
    (h : ∀ s d, (declare s d).map f = declare (f s) (g d)) (s : OptionSet)
    (decls : List OptionDecl) :
    (decls.foldlM declare s).map f = (decls.map g).foldlM declare (f s) := by
  induction decls generalizing s with
  | nil => rfl
  | cons d decls ih =>
    rw [List.map_cons, List.foldlM_cons, List.foldlM_cons, ← h]
    cases declare s d with
    | none => rfl
    | some s' => exact ih s'

theorem lookup_keeping (s : OptionSet) (key : Key) :
    s.keeping.flags.lookup key = (s.flags.lookup key).map Flag.keeping := by
  obtain ⟨table, flags, positional, unmatched⟩ := s
  induction flags with
  | nil => rfl
  | cons e flags ih =>
    obtain ⟨key', flag⟩ := e
    simp only [keeping, List.map_cons, List.lookup_cons] at ih ⊢
    cases key == key' with
    | true => rfl
    | false => exact ih

theorem verdict_keeping (s : OptionSet) (key : Key) (token : String) :
    s.keeping.verdict key token = (s.verdict key token).map fun _ => .keep := by
  unfold verdict
  split
  · exact s.positional.verdict_keeping _ _
  · split
    · exact s.unmatched.verdict_keeping _ _
    · rw [lookup_keeping]
      cases s.flags.lookup key with
      | none => rfl
      | some flag => exact flag.policy.verdict_keeping _ _

theorem note_keeping (s : OptionSet) (m : Matches) (key : Key) (token : String) :
    s.keeping.note m key token = s.note m key token := by
  unfold note
  rw [lookup_keeping]
  cases s.flags.lookup key <;> rfl

/-- A step records the same, or fails in the same way, whether the set keeps or discards. -/
theorem recordStep_keeping (s : OptionSet) : s.keeping.recordStep = s.recordStep := by
  funext m step
  cases step with
  | offer key place token =>
    simp only [recordStep, verdict_keeping, note_keeping]
    cases s.note m key token with
    | none => rfl
    | some _ => cases s.verdict key token <;> rfl
  | store _ _ _ | separator | fail _ => rfl

theorem parse_keeping (s : OptionSet) (args : ArgVec) :
    (s.keeping.parse args).map Prod.fst = (s.parse args).map Prod.fst := by
  rw [parse_map_fst, parse_map_fst, recordStep_keeping]
  rfl

theorem exists_parse_keeping_iff {s : OptionSet} {args : ArgVec} {m : Matches} :
    (∃ out, s.keeping.parse args = .ok (m, out)) ↔ ∃ out, s.parse args = .ok (m, out) := by
  rw [exists_parse_eq_ok_iff, exists_parse_eq_ok_iff, recordStep_keeping]
  rfl

/-- The set with other policies for positional arguments and unmatched options. -/
def withPolicies (s : OptionSet) (positional unmatched : Policy) : OptionSet :=
  { s with positional := positional, unmatched := unmatched }

theorem withPolicies_declare (positional unmatched : Policy) (s : OptionSet) (d : OptionDecl) :
    (s.declare d).map (fun s => s.withPolicies positional unmatched) =
      (s.withPolicies positional unmatched).declare d := by
  cases d with
  | flag t name policy =>
    simp only [declare, withPolicies, Option.map_map]
    rfl
  | value _ _ | set _ _ _ | toggle _ _ | keep _ | discard _ => rfl

section Refusals

variable {s : OptionSet} {positional unmatched : Policy}

theorem exists_verdict_withPolicies (hpositional : positional = .error → s.positional = .error)
    (hunmatched : unmatched = .error → s.unmatched = .error) {key : Key} {token : String}
    {d : Disposition} (h : s.verdict key token = .ok d) :
    ∃ d', (s.withPolicies positional unmatched).verdict key token = .ok d' := by
  unfold verdict at h ⊢
  -- Were the new policy to refuse the token, then so would the old one.
  have hrefuses : ∀ {p p' : Policy} {complaint : String}, (p' = .error → p = .error) →
      p.verdict complaint token = .ok d → ∃ d', p'.verdict complaint token = .ok d' := by
    intro p p' complaint himp hok
    cases hv : p'.verdict complaint token with
    | ok d' => exact ⟨d', rfl⟩
    | error message =>
      obtain ⟨herror, _⟩ := Policy.verdict_eq_error_iff.mp hv
      rw [himp herror] at hok
      cases hok
  split
  next hkey =>
    rw [if_pos hkey] at h
    exact hrefuses hpositional h
  next hkey =>
    rw [if_neg hkey] at h
    split
    next hkey' =>
      rw [if_pos hkey'] at h
      exact hrefuses hunmatched h
    next hkey' =>
      rw [if_neg hkey'] at h
      exact ⟨d, h⟩

theorem recordStep_withPolicies (hpositional : positional = .error → s.positional = .error)
    (hunmatched : unmatched = .error → s.unmatched = .error) {m m' : Matches}
    {step : Step Matches} (h : s.recordStep m step = .ok m') :
    (s.withPolicies positional unmatched).recordStep m step = .ok m' := by
  cases step with
  | offer key place token =>
    simp only [recordStep] at h ⊢
    split
    next hkey =>
      rw [if_pos hkey] at h
      exact h
    next hkey =>
      rw [if_neg hkey] at h
      have hsame : (s.withPolicies positional unmatched).note m key token =
          s.note m key token := rfl
      rw [hsame]
      cases hnote : s.note m key token with
      | none => simp [hnote] at h
      | some noted =>
        rw [hnote] at h
        cases hv : s.verdict key token with
        | error cause => simp [hv] at h
        | ok d =>
          obtain ⟨d', hd'⟩ := exists_verdict_withPolicies hpositional hunmatched hv
          rw [hv] at h
          simp only [hd']
          exact h
  | store _ _ _ | separator | fail _ => exact h

theorem foldlM_withPolicies (hpositional : positional = .error → s.positional = .error)
    (hunmatched : unmatched = .error → s.unmatched = .error) {m m' : Matches}
    {steps : List (Step Matches)} (h : steps.foldlM s.recordStep m = .ok m') :
    steps.foldlM (s.withPolicies positional unmatched).recordStep m = .ok m' := by
  induction steps generalizing m with
  | nil => exact h
  | cons step steps ih =>
    rw [List.foldlM_cons] at h ⊢
    cases hstep : s.recordStep m step with
    | error e =>
      rw [hstep] at h
      cases h
    | ok next =>
      rw [hstep] at h
      rw [recordStep_withPolicies hpositional hunmatched hstep]
      exact ih h

/-- A set that refuses less records the same wherever the other one succeeds. -/
theorem exists_parse_withPolicies (hpositional : positional = .error → s.positional = .error)
    (hunmatched : unmatched = .error → s.unmatched = .error) {args : ArgVec} {m : Matches}
    (h : ∃ out, s.parse args = .ok (m, out)) :
    ∃ out, (s.withPolicies positional unmatched).parse args = .ok (m, out) :=
  exists_parse_eq_ok_iff.mpr
    (foldlM_withPolicies hpositional hunmatched (exists_parse_eq_ok_iff.mp h))

end Refusals

end OptionSet

namespace Config

variable {c c' : Config} {s s' : OptionSet}

/-- A compiled set that keeps what it does not refuse is known from its declarations and from what
else it refuses. -/
theorem foldlM_keeping_of_compile (h : c.compile = .ok s) (positional unmatched : Policy) :
    (c.options.map OptionDecl.keeping).foldlM OptionSet.declare
        ⟨.empty, [], positional, unmatched⟩ =
      some (s.keeping.withPolicies positional unmatched) := by
  have hkeeping := OptionSet.map_foldlM_declare OptionSet.keeping_declare (OptionSet.ofConfig c)
    c.options
  have hpolicies := OptionSet.map_foldlM_declare (g := id)
    (OptionSet.withPolicies_declare positional unmatched) (OptionSet.ofConfig c).keeping
    (c.options.map OptionDecl.keeping)
  rw [List.map_id, ← hkeeping, (compile_eq_ok_iff.mp h).2] at hpolicies
  exact hpolicies.symm

/-- Keeping and discarding touch only the rebuilt vector: where two configurations declare the same
but for the flags whose tokens they keep or discard, and refuse the same otherwise, a parse records
the same or fails with the same error. And where the second refuses less, it records the same
whenever the first succeeds. -/
theorem recorded_of_keeping_eq (h : c.compile = .ok s) (h' : c'.compile = .ok s')
    (hoptions : c.options.map OptionDecl.keeping = c'.options.map OptionDecl.keeping)
    (args : ArgVec) :
    (c.positional.keeping = c'.positional.keeping → c.unmatched.keeping = c'.unmatched.keeping →
        (s.parse args).map Prod.fst = (s'.parse args).map Prod.fst) ∧
      ((c'.positional = .error → c.positional = .error) →
        (c'.unmatched = .error → c.unmatched = .error) →
        ∀ m out, s.parse args = .ok (m, out) → ∃ out', s'.parse args = .ok (m, out')) := by
  obtain ⟨hpos, hunm⟩ := policies_of_compile h
  obtain ⟨hpos', hunm'⟩ := policies_of_compile h'
  -- But for the policies that are not those of flags, the two sets that keep the rest are one.
  have heq : s.keeping.withPolicies c'.positional.keeping c'.unmatched.keeping = s'.keeping := by
    have hfold := foldlM_keeping_of_compile h c'.positional.keeping c'.unmatched.keeping
    rw [hoptions, foldlM_keeping_of_compile h', Option.some.injEq, ← hpos', ← hunm'] at hfold
    rw [← hpos', ← hunm', ← hfold]
    rfl
  constructor
  · intro hpositional hunmatched
    have hsame : s.keeping.withPolicies c'.positional.keeping c'.unmatched.keeping = s.keeping := by
      rw [← hpositional, ← hunmatched, ← hpos, ← hunm]
      rfl
    rw [← s.parse_keeping, ← s'.parse_keeping, ← heq, hsame]
  · intro hpositional hunmatched m out hparse
    have hpositional : c'.positional.keeping = .error → s.keeping.positional = .error := by
      rw [Policy.keeping_eq_error_iff, OptionSet.keeping, Policy.keeping_eq_error_iff, hpos]
      exact hpositional
    have hunmatched : c'.unmatched.keeping = .error → s.keeping.unmatched = .error := by
      rw [Policy.keeping_eq_error_iff, OptionSet.keeping, Policy.keeping_eq_error_iff, hunm]
      exact hunmatched
    have hkept : ∃ out, s.keeping.parse args = .ok (m, out) :=
      OptionSet.exists_parse_keeping_iff.mpr ⟨out, hparse⟩
    have hkept' := OptionSet.exists_parse_withPolicies hpositional hunmatched hkept
    rw [heq] at hkept'
    exact OptionSet.exists_parse_keeping_iff.mp hkept'

theorem recorded_of_keeping_eq_verbose :
    let verbose := OptionDecl.flag ⟨"-v"⟩ (some "verbose")
    let kept : Config := ⟨none, none, [verbose .keep], .keep, .keep⟩
    let dropped : Config := ⟨none, none, [verbose .discard], .discard, .discard⟩
    let strict : Config := ⟨none, none, [verbose .keep], .keep, .error⟩
    let args := ArgVec.ofList ["prog", "-v", "in.txt", "-v"]
    ∃ s s' s'', kept.compile = .ok s ∧ dropped.compile = .ok s' ∧ strict.compile = .ok s'' ∧
      (s.parse args).map Prod.fst = (s'.parse args).map Prod.fst ∧
      ∃ m, m.get? "verbose" = some (.uint 2) ∧ m.positionals = ["in.txt"] ∧
        s''.parse args = .ok (m, args) ∧ ∃ out, s'.parse args = .ok (m, out) := by
  intro verbose kept dropped strict args
  have hkept : kept.compile = .ok kept.declared := by cbv
  have hdropped : dropped.compile = .ok dropped.declared := by cbv
  have hstrict : strict.compile = .ok strict.declared := by cbv
  let m : Matches := (Matches.empty.record "verbose" (.uint 2)).addPositional "in.txt"
  have hparse : strict.declared.parse args = .ok (m, args) := by cbv
  have hsame := (recorded_of_keeping_eq hkept hdropped rfl args).1 rfl rfl
  have hlenient := (recorded_of_keeping_eq hstrict hdropped rfl args).2 (by decide) (by decide)
  exact ⟨_, _, _, hkept, hdropped, hstrict, hsame, m, by cbv, by cbv, hparse,
    hlenient m args hparse⟩

end Config

end GroupedOptions
