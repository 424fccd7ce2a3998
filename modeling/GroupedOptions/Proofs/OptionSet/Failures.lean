import GroupedOptions.Proofs.OptionSet.Counting

/-!
# Failures of an option set

What a valid configuration compiles to leaves few ways to fail: a value or a group that never came,
a group that does not decode, a text that the conversion of a value does not take, and a token that
the policy on positional arguments or unmatched options refuses. Flags refuse nothing, sets and
toggles convert nothing, and the row of a value is never without its conversion. What remains is the
count of a flag, which may be at its greatest number.
-/
namespace GroupedOptions

/-- `c.FailsWith t tokens e`: why a parse with the option set of `c`, whose table is `t`, fails
with `e`. -/
inductive Config.FailsWith (c : Config) (t : Table Matches) (tokens : List String) :
    ParseError → Prop
  | missingValue {token} : IsOption tokens token → t.Awaits token →
      FailsWith c t tokens (.missingArgument token)
  | missingGroup : ["-o"] <:+ tokens → FailsWith c t tokens (.missingArgument "-o")
  | invalidGroup {cause} : IsField tokens (.error cause) →
      FailsWith c t tokens (.invalidGroup cause)
  | invalidConversion {templ name conversion token next text cause} :
      .value templ name ∈ c.options → OptionDecl.conversion? templ = some conversion →
      IsOption tokens token → (templ.match? token).isSome →
      text = token ∨ (templ.IsSpacedName token ∧ text = token ++ next) →
      conversion.convert (templ.value token (some next)) = .error cause →
      FailsWith c t tokens (.invalidConversion text cause)
  | positional {token} : c.positional = .error → token ∈ tokens →
      FailsWith c t tokens (.callback (.error ("unexpected positional argument: " ++ token)))
  | unmatched {token} : c.unmatched = .error → IsOption tokens token → t.lookup token = [] →
      FailsWith c t tokens (.callback (.error ("unknown option: " ++ token)))
  | overflow {templ given policy name token} : .flag templ given policy ∈ c.options →
      (OptionDecl.flag templ given policy).name? = some name → IsOption tokens token →
      (templ.match? token).isSome →
      c.DeclaresUnsigned name ∨ 2 ^ 64 ≤ (t.steps .options tokens).length →
      FailsWith c t tokens (.callback .overflow)

namespace OptionSet

variable {s : OptionSet} {m : Matches} {place : Place} {token : String} {e : ParseError}

/-- Without a count to overflow, a token that is refused is refused by the policy that has the
verdict on it. -/
theorem recordStep_offer_eq_error {key : Key} {p : Policy} {complaint : String} {noted : Matches}
    (hkey : ¬(key = .discard ∨ key = .keep)) (hnote : s.note m key token = some noted)
    (hverdict : s.verdict key token = p.verdict complaint token)
    (h : s.recordStep m (.offer key place token) = .error e) :
    p = .error ∧ e = .callback (.error (complaint ++ ": " ++ token)) := by
  simp only [recordStep, if_neg hkey, hnote, hverdict] at h
  cases hv : p.verdict complaint token with
  | ok d => simp [hv] at h
  | error cause =>
    obtain ⟨herror, rfl⟩ := Policy.verdict_eq_error_iff.mp hv
    rw [hv] at h
    cases h
    exact ⟨herror, rfl⟩

theorem exists_recordStep_eq_error {steps : List (Step Matches)}
    (h : steps.foldlM s.recordStep m = .error e) :
    ∃ before step after m', steps = before ++ step :: after ∧
      before.foldlM s.recordStep m = .ok m' ∧ s.recordStep m' step = .error e := by
  induction steps generalizing m with
  | nil => cases h
  | cons step steps ih =>
    rw [List.foldlM_cons] at h
    cases hstep : s.recordStep m step with
    | error e' =>
      rw [hstep] at h
      cases h
      exact ⟨[], step, steps, m, rfl, rfl, hstep⟩
    | ok next =>
      rw [hstep] at h
      obtain ⟨before, step', after, m', rfl, hbefore, hfails⟩ := ih h
      refine ⟨step :: before, step', after, m', rfl, ?_, hfails⟩
      rw [List.foldlM_cons, hstep]
      exact hbefore

end OptionSet

namespace Config

variable {c : Config} {s : OptionSet}

theorem exists_verdict_of_isFree (h : c.compile = .ok s) {key : Key} (hkey : key.IsFree)
    (token : String) : ∃ d, s.verdict key token = .ok d := by
  obtain ⟨hunmatched, hpositional, _, _⟩ := hkey
  unfold OptionSet.verdict
  rw [if_neg hpositional, if_neg hunmatched]
  cases hlookup : s.flags.lookup key with
  | none => exact ⟨_, rfl⟩
  | some flag =>
    have hmem := OptionSet.mem_flags_of_lookup hlookup
    obtain ⟨_, t, given, hd, _⟩ := exists_decl_of_mem_flags h hmem
    obtain ⟨index, hfault⟩ := fault?_eq_none_of_compile h hd
    have hpolicy := OptionDecl.policy_ne_error_of_fault?_eq_none hfault
    cases hp : flag.policy with
    | error => exact absurd hp hpolicy
    | keep | discard =>
      simp only [hp]
      exact ⟨_, rfl⟩

theorem failsWith_of_hit (h : c.compile = .ok s) {tokens : List String} {hit : Hit Matches}
    {place : Place} {token value : String} {m : Matches} {e : ParseError}
    (htoken : IsOption tokens token) (hmem : hit ∈ s.table.lookup token)
    (hover : ∀ name, OptionSet.nextCount? m name = none →
      c.DeclaresUnsigned name ∨ 2 ^ 64 ≤ (s.table.steps .options tokens).length)
    (he : s.recordStep m (hit.stepWith place token value) = .error e) :
    c.FailsWith s.table tokens e := by
  obtain ⟨hrow, hmatch⟩ := s.table.mem_lookup.mp hmem
  have hsome : (hit.row.templ.match? token).isSome := by
    rw [hmatch]
    rfl
  obtain ⟨d, hd, key, hrow, hflags⟩ := exists_decl_of_mem_rows h hrow
  obtain ⟨index, hfault⟩ := fault?_eq_none_of_compile h hd
  rcases OptionDecl.rows_cases hfault hrow with ⟨k, hdest, hk⟩ | ⟨name, hname,
    ⟨policy, hdest, hflag⟩ | ⟨fixed, hdest, hdirective⟩ |
    ⟨given, conversion, rfl, hdest, hconversion⟩⟩
  · rw [Hit.stepWith_of_key hdest] at he
    rcases hk with rfl | rfl <;> simp [OptionSet.recordStep] at he
  · obtain ⟨hfree, hlookup⟩ := lookup_of_mem_flags h (hflags _ hflag)
    obtain ⟨disposition, hverdict⟩ := exists_verdict_of_isFree h hfree (hit.text token value)
    rw [Hit.stepWith_of_key hdest, OptionSet.recordStep_offer_of_lookup hfree hlookup,
      hverdict] at he
    cases hcount : OptionSet.nextCount? m name with
    | none =>
      simp only [hcount] at he
      cases he
      cases d with
      | flag templ given policy' =>
        rw [List.mem_singleton.mp hrow] at hsome
        exact .overflow hd hname htoken hsome (hover name hcount)
      | value _ _ | set _ _ _ | toggle _ _ | keep _ | discard _ => cases hflag
    | some count => simp only [hcount, reduceCtorEq] at he
  · rw [Hit.stepWith_of_directive?_eq_none hmatch hdirective hdest] at he
    cases he
  · have hstep := Hit.stepWith_of_conversion? hmatch hconversion hdest place (some value)
    rw [Option.getD_some] at hstep
    rw [hstep] at he
    cases hconvert : conversion.convert (hit.row.templ.value token (some value)) with
    | ok v =>
      rw [hconvert] at he
      cases he
    | error cause =>
      rw [hconvert] at he
      cases he
      exact .invalidConversion hd hconversion htoken hsome (Hit.text_cases hmatch value) hconvert

theorem failsWith_of_recordStep (h : c.compile = .ok s) {tokens : List String}
    {step : Step Matches} (hgives : s.table.Gives tokens step) {m : Matches} {e : ParseError}
    (hover : ∀ name, OptionSet.nextCount? m name = none →
      c.DeclaresUnsigned name ∨ 2 ^ 64 ≤ (s.table.steps .options tokens).length)
    (he : s.recordStep m step = .error e) : c.FailsWith s.table tokens e := by
  obtain ⟨hpositional, hunmatched⟩ := policies_of_compile h
  cases hgives with
  | positional htoken =>
    obtain ⟨herror, rfl⟩ := OptionSet.recordStep_offer_eq_error (by decide) rfl rfl he
    exact .positional (hpositional.symm.trans herror) htoken
  | unmatched htoken hnone =>
    obtain ⟨herror, rfl⟩ := OptionSet.recordStep_offer_eq_error (by decide) rfl rfl he
    exact .unmatched (hunmatched.symm.trans herror) htoken hnone
  | hit htoken hmem => exact failsWith_of_hit h htoken hmem hover he
  | separator => cases he
  | invalidGroup hfield =>
    cases he
    exact .invalidGroup hfield
  | missingValue htoken hw =>
    cases he
    exact .missingValue htoken hw
  | missingGroup hsuffix =>
    cases he
    exact .missingGroup hsuffix

/-- A parse with the option set of a valid configuration fails for one of the reasons above, so
never over a template or a position. A field row under the template of a value stores what its
conversion yields or fails with the conversion, whatever the fixed value of the row. -/
theorem failsWith_of_parse_eq_error (h : c.compile = .ok s) (args : ArgVec) :
    (∀ e, s.parse args = .error e → c.FailsWith s.table args.toList.tail e) ∧
      ∀ t name, .value t name ∈ c.options → ∃ conversion,
        OptionDecl.conversion? t = some conversion ∧
        ∀ token, ∀ hit ∈ s.table.lookup token, hit.row.templ = t →
          ∀ field fixed, hit.row.dest = .field field fixed → ∀ place value,
            hit.stepWith place token value =
              match conversion.convert (t.value token (some value)) with
              | .ok v => .store field (hit.text token value) v
              | .error cause => .fail (.invalidConversion (hit.text token value) cause) := by
  constructor
  · intro e he
    have hfold := OptionSet.parse_eq_error_iff.mp he
    obtain ⟨before, step, after, m, hsteps, hbefore, hstep⟩ :=
      OptionSet.exists_recordStep_eq_error hfold
    refine failsWith_of_recordStep h (Table.gives_of_mem_steps (by simp [hsteps])) ?_ hstep
    intro name hcount
    refine (declaresUnsigned_or_le_of_overflow h hsteps hbefore hcount).imp_right fun hle => ?_
    have hcounted := List.countP_le_length (p := s.counts name) (l := before)
    rw [hsteps, List.length_append, List.length_cons]
    omega
  · intro t name hd
    obtain ⟨index, hfault⟩ := fault?_eq_none_of_compile h hd
    obtain ⟨conversion, hconversion⟩ :=
      Option.isSome_iff_exists.mp (OptionDecl.conversion?_of_fault?_eq_none hfault)
    refine ⟨conversion, hconversion, ?_⟩
    rintro token hit hmem rfl field fixed hdest place value
    obtain ⟨_, hmatch⟩ := s.table.mem_lookup.mp hmem
    exact Hit.stepWith_of_conversion? hmatch hconversion hdest place (some value)

theorem failsWith_of_parse_eq_error_char :
    let c : Config :=
      ⟨none, none, [.flag ⟨"-v"⟩ none .keep, .value ⟨"-c %c"⟩ (some "mark")], .keep, .error⟩
    let args := ArgVec.ofList ["prog", "-v", "-c", "ab"]
    ∃ s, c.compile = .ok s ∧ s.parse args = .error (.invalidConversion "-cab" .malformed) ∧
      c.FailsWith s.table args.toList.tail (.invalidConversion "-cab" .malformed) := by
  intro c args
  have h : c.compile = .ok c.declared := compile_eq_ok_iff.mpr ⟨by decide, rfl⟩
  have hfold : (c.declared.table.steps .options args.toList.tail).foldlM c.declared.recordStep
      .empty = .error (.invalidConversion "-cab" .malformed) := by decide +kernel
  have hparse := OptionSet.parse_eq_error_iff.mpr hfold
  exact ⟨c.declared, h, hparse, (failsWith_of_parse_eq_error h args).1 _ hparse⟩

/-- A value may leave the greatest number under the name of a flag, and the parse neither succeeds
nor fails over an argument. -/
theorem parse_eq_overflow_of_shared :
    let c : Config :=
      ⟨none, none, [.value ⟨"-n=%u"⟩ none, .flag ⟨"-n"⟩ none .keep], .keep, .keep⟩
    ∃ s, c.compile = .ok s ∧
      s.parse (.ofList ["prog", "-n=18446744073709551615", "-n"]) =
        .error (.callback .overflow) := by
  intro c
  have h : c.compile = .ok c.declared := compile_eq_ok_iff.mpr ⟨by decide, rfl⟩
  refine ⟨c.declared, h, OptionSet.parse_eq_error_iff.mpr ?_⟩
  decide +kernel

end Config

end GroupedOptions
