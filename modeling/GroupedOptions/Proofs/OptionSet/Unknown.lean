import GroupedOptions.Proofs.NormalForm
import GroupedOptions.Proofs.OptionSet.Failures

/-!
# Queries and parses agree

A query looks a token up as it stands. A parse of that token alone reads its shape or decodes it
from a group, may await a value for it, converts and asks the policies, and any of these may fail.
The main statement is that the complaint about an unknown option comes exactly where the query finds
no row, so that none of the other failures can be taken for it.
-/
namespace GroupedOptions

namespace Table

variable {D : Type} {t : Table D} {token : String}

theorem isMatch_eq_false_iff : t.isMatch token = false ↔ t.lookup token = [] := by
  simp [isMatch, find?]

theorem not_awaits_of_lookup_eq_nil (h : t.lookup token = []) : ¬ t.Awaits token := by
  rintro ⟨hit, hmem, _⟩
  rw [h] at hmem
  cases hmem

theorem steps_escape_of_lookup_eq_nil (h : t.lookup token = []) :
    t.steps .options ["-o", Group.escape token] = [.offer .unmatched .group token] := by
  rw [t.steps_group (by decide), Group.fields_escape,
    t.groupSteps_of_not_awaits (not_awaits_of_lookup_eq_nil h), t.itemSteps_of_unmatched h]
  rfl

theorem steps_flag_of_lookup_eq_nil (h : t.lookup token = []) (hs : Shape.of token = .flag) :
    t.steps .options [token] = [.offer .unmatched .output token] := by
  rw [t.steps_cons, t.feed_flag_of_not_awaits hs (not_awaits_of_lookup_eq_nil h),
    t.itemSteps_of_unmatched h]
  rfl

end Table

/-- A flag begins with a dash and is neither a group nor the separator. -/
theorem Shape.of_eq_flag_of_text {token : String} (hdash : token.toList.head? = some '-')
    (hgroup : ¬ "-o".toList <+: token.toList) (hseparator : token ≠ "--") :
    Shape.of token = .flag := by
  obtain ⟨cs, hcs⟩ := List.head?_eq_some_iff.mp hdash
  refine of_eq_flag_iff.mpr ⟨cs, hcs, ?_, ?_⟩
  · intro ho
    obtain ⟨ds, rfl⟩ := List.head?_eq_some_iff.mp ho
    exact hgroup ⟨ds, hcs.symm⟩
  · rintro rfl
    exact hseparator (String.toList_injective hcs)

namespace Config

variable {c : Config} {s : OptionSet} {token : String}

/-- The complaint names the option, so it is that option that no row matches. -/
theorem lookup_eq_nil_of_parse_eq_error (h : c.compile = .ok s) {args : ArgVec}
    (hparse : s.parse args = .error (.callback (.error ("unknown option: " ++ token)))) :
    s.table.lookup token = [] := by
  generalize hcause : Halt.error ("unknown option: " ++ token) = cause at hparse
  cases (failsWith_of_parse_eq_error h args).1 _ hparse with
  | positional _ _ =>
    have hchars := congrArg (fun m : String => m.toList.take 3) (Halt.error.inj hcause)
    simp at hchars
  | unmatched _ _ hnone =>
    cases (String.append_right_inj _).mp (Halt.error.inj hcause)
    exact hnone
  | overflow _ _ _ _ _ => cases hcause

/-- An option that is offered as unmatched and nothing else meets the policy for such options. -/
theorem parse_eq_error_of_steps (h : c.compile = .ok s) (hpolicy : c.unmatched = .error)
    {args : ArgVec} {place : Place}
    (hsteps : s.table.steps .options args.toList.tail = [.offer .unmatched place token]) :
    s.parse args = .error (.callback (.error ("unknown option: " ++ token))) := by
  have hverdict : s.verdict .unmatched token =
      .error (.error ("unknown option" ++ ": " ++ token)) := by
    have hunmatched := (policies_of_compile h).2.trans hpolicy
    have heq : s.verdict .unmatched token = s.unmatched.verdict "unknown option" token := rfl
    rw [heq, hunmatched]
    rfl
  have hfree : ¬ (Key.unmatched = .discard ∨ Key.unmatched = .keep) := by decide
  rw [OptionSet.parse_eq_error_iff, hsteps, List.foldlM_cons, OptionSet.recordStep, if_neg hfree,
    hverdict]
  rfl

theorem isMatch_eq_false_iff_of_steps (h : c.compile = .ok s) (hpolicy : c.unmatched = .error)
    {args : ArgVec} {place : Place} (hsteps : s.table.lookup token = [] →
      s.table.steps .options args.toList.tail = [.offer .unmatched place token]) :
    s.table.isMatch token = false ↔
      s.parse args = .error (.callback (.error ("unknown option: " ++ token))) := by
  rw [Table.isMatch_eq_false_iff]
  constructor
  · intro hnone
    exact parse_eq_error_of_steps h hpolicy (hsteps hnone)
  · exact lookup_eq_nil_of_parse_eq_error h

/-- Where unmatched options are errors, a token matches no row exactly if the parse of a group with
that field alone complains about it as an unknown option; and if the token is a flag, exactly if the
parse of the flag alone does. -/
theorem isMatch_eq_false_iff_parse (h : c.compile = .ok s) (hpolicy : c.unmatched = .error)
    (program token : String) :
    (∀ args : ArgVec, args.toList = [program, "-o", Group.escape token] →
      (s.table.isMatch token = false ↔
        s.parse args = .error (.callback (.error ("unknown option: " ++ token))))) ∧
    (token.toList.head? = some '-' → ¬ "-o".toList <+: token.toList → token ≠ "--" →
      ∀ args : ArgVec, args.toList = [program, token] →
        (s.table.isMatch token = false ↔
          s.parse args = .error (.callback (.error ("unknown option: " ++ token))))) := by
  constructor
  · intro args hargs
    apply isMatch_eq_false_iff_of_steps h hpolicy
    intro hnone
    rw [hargs]
    exact Table.steps_escape_of_lookup_eq_nil hnone
  · intro hdash hgroup hseparator args hargs
    have hs := Shape.of_eq_flag_of_text hdash hgroup hseparator
    apply isMatch_eq_false_iff_of_steps h hpolicy
    intro hnone
    rw [hargs]
    exact Table.steps_flag_of_lookup_eq_nil hnone hs

/-- The token `-v,q` is unknown as a field and as a flag, and `-p` is known but has no value. -/
theorem isMatch_eq_false_iff_parse_port :
    let c : Config := ⟨none, none, [.value ⟨"-p %u"⟩ (some "port"), .flag ⟨"-v"⟩ none .keep],
      .discard, .error⟩
    ∃ s, c.compile = .ok s ∧ c.unmatched = .error ∧
      s.parse (.ofList ["prog", "-o", "-v\\,q"]) =
        .error (.callback (.error "unknown option: -v,q")) ∧
      s.parse (.ofList ["prog", "-v,q"]) =
        .error (.callback (.error "unknown option: -v,q")) ∧
      s.table.isMatch "-p" = true ∧
      s.parse (.ofList ["prog", "-p"]) = .error (.missingArgument "-p") := by
  intro c
  let s := c.declared
  have h : c.compile = .ok s := compile_eq_ok_iff.mpr ⟨by decide, rfl⟩
  have hnone : s.table.isMatch "-v,q" = false := by decide
  obtain ⟨hfield, hflag⟩ := isMatch_eq_false_iff_parse h rfl "prog" "-v,q"
  have hmissing : (s.table.steps .options ["-p"]).foldlM s.recordStep .empty =
      .error (.missingArgument "-p") := by decide +kernel
  refine ⟨s, h, rfl, (hfield _ rfl).mp hnone, (hflag rfl (by decide) (by decide) _ rfl).mp hnone,
    by decide, OptionSet.parse_eq_error_iff.mpr hmissing⟩

end Config

end GroupedOptions
