import GroupedOptions.Proofs.OptionSet.Results
import GroupedOptions.Proofs.Origin

/-!
# Counts of flags

A step of a parse records one thing at most: a positional argument, the next count of a flag, the
fixed number of a row or what the conversion of a value yields, each under a declared name. The
count of a flag is one more than the unsigned number that is there already. The main statement is
that the counter, which has 64 bits, overflows only after as many tokens as it can count, or where
a value is declared under the name of the flag whose conversion yields unsigned numbers.
-/
namespace GroupedOptions

def Conversion.isUnsigned : Conversion → Bool
  | .unsigned | .hex | .octal => true
  | _ => false

theorem Conversion.isUnsigned_of_convert {conversion : Conversion} {text : String} {n : UInt64}
    (h : conversion.convert text = .ok (.uint n)) : conversion.isUnsigned = true := by
  cases conversion with
  | unsigned | hex | octal => rfl
  | signed =>
    simp only [convert] at h
    cases hread : Numeral.signed 10 text.toList <;> simp [hread, Functor.map, Except.map] at h
  | detected =>
    simp only [convert] at h
    cases hread : Numeral.detected text.toList <;> simp [hread, Functor.map, Except.map] at h
  | float =>
    simp only [convert] at h
    cases hread : Binary.read? .binary64 text.toList <;> simp [hread] at h
  | char =>
    simp only [convert] at h
    split at h <;> cases h
  | str => cases h

/-- `c.Notes s m step m'`: a step of a parse with the option set `s` of `c` makes `m'` of the
record `m`. -/
inductive Config.Notes (c : Config) (s : OptionSet) (m : Matches) :
    Step Matches → Matches → Prop
  | nothing {step} : Notes c s m step m
  | positional {place token} : Notes c s m (.offer .positional place token) (m.addPositional token)
  | flag {key place token flag d count} : s.flags.lookup key = some flag → d ∈ c.options →
      d.name? = some flag.name → OptionSet.nextCount? m flag.name = some count →
      Notes c s m (.offer key place token) (m.record flag.name (.uint count))
  | fixed {step d name n} : d ∈ c.options → d.name? = some name →
      Notes c s m step (m.record name (.int n))
  | converted {step templ given conversion name text v} : .value templ given ∈ c.options →
      (OptionDecl.value templ given).name? = some name →
      OptionDecl.conversion? templ = some conversion → conversion.convert text = .ok v →
      Notes c s m step (m.record name v)

namespace Config

variable {c : Config} {s : OptionSet}

/-- A row that matches an option records what it is there for. -/
theorem notes_of_hit (h : c.compile = .ok s) {hit : Hit Matches} {place : Place}
    {token value : String} (hmem : hit ∈ s.table.lookup token) (m : Matches) :
    c.Notes s m (hit.stepWith place token value)
      (s.noteStep m (hit.stepWith place token value)) := by
  obtain ⟨hrow, hmatch⟩ := s.table.mem_lookup.mp hmem
  obtain ⟨d, hd, key, hrow, hflags⟩ := exists_decl_of_mem_rows h hrow
  obtain ⟨index, hfault⟩ := fault?_eq_none_of_compile h hd
  rcases OptionDecl.rows_cases hfault hrow with ⟨k, hdest, hk⟩ | ⟨name, hname,
    ⟨policy, hdest, hflag⟩ | ⟨fixed, hdest, hdirective⟩ |
    ⟨given, conversion, rfl, hdest, hconversion⟩⟩
  · have hkey : k = .discard ∨ k = .keep := hk.symm
    rw [Hit.stepWith_of_key hdest, OptionSet.noteStep, if_pos hkey]
    exact .nothing
  · obtain ⟨hfree, hlookup⟩ := lookup_of_mem_flags h (hflags _ hflag)
    rw [Hit.stepWith_of_key hdest, OptionSet.noteStep_offer_of_lookup hfree hlookup]
    obtain ⟨_, hnote⟩ | ⟨count, hcount, hnote⟩ := OptionSet.noteCount_cases m name
    · rw [hnote]
      exact .nothing
    · rw [hnote]
      exact .flag hlookup hd hname hcount
  · rw [Hit.stepWith_of_directive?_eq_none hmatch hdirective hdest]
    exact .fixed hd hname
  · have hstep := Hit.stepWith_of_conversion? hmatch hconversion hdest place (some value)
    rw [Option.getD_some] at hstep
    rw [hstep]
    cases hconvert : conversion.convert (hit.row.templ.value token (some value)) with
    | error cause => exact .nothing
    | ok v => exact .converted hd hname hconversion hconvert

theorem notes_of_gives (h : c.compile = .ok s) {tokens : List String} {step : Step Matches}
    (hgives : s.table.Gives tokens step) (m : Matches) : c.Notes s m step (s.noteStep m step) := by
  cases hgives with
  | positional _ => exact .positional
  | unmatched _ _ => exact .nothing
  | hit _ hmem => exact notes_of_hit h hmem m
  | separator | invalidGroup _ | missingValue _ _ | missingGroup _ => exact .nothing

/-- What holds of the empty record and is kept by every step holds of what a parse records. -/
theorem notes_induction {motive : List (Step Matches) → Matches → Prop} (h : c.compile = .ok s)
    {tokens : List String} {steps : List (Step Matches)}
    (hsteps : ∀ step ∈ steps, s.table.Gives tokens step) (hstart : motive [] .empty)
    (hstep : ∀ done m step m', motive done m → c.Notes s m step m' → motive (done ++ [step]) m') :
    motive steps (steps.foldl s.noteStep .empty) := by
  induction steps using List.reverseRecOn with
  | nil => exact hstart
  | append_singleton done step ih =>
    rw [List.foldl_append]
    have hdone := ih fun x hx => hsteps x (List.mem_append_left _ hx)
    exact hstep _ _ _ _ hdone (notes_of_gives h (hsteps step (by simp)) _)

/-- A value is declared under the name, and its conversion yields unsigned numbers. -/
def DeclaresUnsigned (c : Config) (name : String) : Prop :=
  ∃ templ given conversion, .value templ given ∈ c.options ∧
    (OptionDecl.value templ given).name? = some name ∧
    OptionDecl.conversion? templ = some conversion ∧ conversion.isUnsigned = true

end Config

namespace OptionSet

variable {m : Matches} {name : String}

def counts (s : OptionSet) (name : String) : Step Matches → Bool
  | .offer key _ _ => (s.flags.lookup key).any fun flag => flag.name == name
  | _ => false

theorem nextCount?_of_ne_uint (h : ∀ n, m.get? name ≠ some (.uint n)) :
    nextCount? m name = some 1 := by
  unfold nextCount?
  split
  next n hn => exact absurd hn (h n)
  next => rfl

theorem nextCount?_cases {n : UInt64} (h : m.get? name = some (.uint n)) :
    (∃ next, nextCount? m name = some next ∧ next.toNat = n.toNat + 1) ∨
      nextCount? m name = none ∧ n.toNat + 1 = 2 ^ 64 := by
  have hlt : n.toNat < 2 ^ 64 := n.toNat_lt
  have hnext : nextCount? m name = if n.toNat + 1 < 2 ^ 64 then some (n + 1) else none := by
    simp only [nextCount?, h]
    rfl
  by_cases hfits : n.toNat + 1 < 2 ^ 64
  · left
    refine ⟨n + 1, by rw [hnext, if_pos hfits], ?_⟩
    have hadd : (n + 1).toNat = (n.toNat + 1) % 2 ^ 64 := UInt64.toNat_add n 1
    rw [hadd, Nat.mod_eq_of_lt hfits]
  · right
    exact ⟨by rw [hnext, if_neg hfits], by omega⟩

theorem exists_of_nextCount?_eq_none (h : nextCount? m name = none) :
    ∃ n, m.get? name = some (.uint n) ∧ n.toNat + 1 = 2 ^ 64 := by
  by_cases hne : ∀ n, m.get? name ≠ some (.uint n)
  · rw [nextCount?_of_ne_uint hne] at h
    cases h
  · push Not at hne
    obtain ⟨n, hn⟩ := hne
    obtain ⟨next, hnext, _⟩ | ⟨_, hmax⟩ := nextCount?_cases hn
    · rw [hnext] at h
      cases h
    · exact ⟨n, hn, hmax⟩

theorem toNat_le_of_nextCount? {k : ℕ} {count : UInt64}
    (h : ∀ n, m.get? name = some (.uint n) → n.toNat ≤ k)
    (hcount : nextCount? m name = some count) : count.toNat ≤ k + 1 := by
  by_cases hne : ∀ n, m.get? name ≠ some (.uint n)
  · rw [nextCount?_of_ne_uint hne] at hcount
    cases hcount
    exact Nat.succ_le_succ (Nat.zero_le k)
  · push Not at hne
    obtain ⟨n, hn⟩ := hne
    have hle := h n hn
    obtain ⟨next, hnext, hsucc⟩ | ⟨hnone, _⟩ := nextCount?_cases hn
    · rw [hnext] at hcount
      cases hcount
      omega
    · rw [hnone] at hcount
      cases hcount

end OptionSet

namespace Config

variable {c : Config} {s : OptionSet} {name : String}

/-- Under a name without such a value, what is counted is no more than what there was to count. -/
theorem count_le (h : c.compile = .ok s) {tokens : List String} {steps : List (Step Matches)}
    (hsteps : ∀ step ∈ steps, s.table.Gives tokens step) (hname : ¬ c.DeclaresUnsigned name) :
    ∀ n, (steps.foldl s.noteStep .empty).get? name = some (.uint n) →
      n.toNat ≤ steps.countP (s.counts name) := by
  refine notes_induction (motive := fun steps m => ∀ n, m.get? name = some (.uint n) →
    n.toNat ≤ steps.countP (s.counts name)) h hsteps ?_ ?_
  · intro n hn
    cases hn
  · intro done m step m' hm hnotes n hn
    rw [List.countP_append, List.countP_singleton]
    have hkept {k : ℕ} (hn : m.get? name = some (.uint n)) :
        n.toNat ≤ done.countP (s.counts name) + k := (hm n hn).trans (Nat.le_add_right _ _)
    -- Only a count or a converted value leaves an unsigned number behind.
    cases hnotes with
    | nothing | positional => exact hkept hn
    | @flag key place token flag d count hlookup _ _ hcount =>
      rw [Matches.get?_record] at hn
      split at hn
      next heq =>
        have hcounts : s.counts name (.offer key place token) = true := by
          simp [OptionSet.counts, hlookup, heq]
        cases hn
        rw [if_pos hcounts]
        exact OptionSet.toNat_le_of_nextCount? (heq ▸ hm) hcount
      next => exact hkept hn
    | fixed _ _ =>
      rw [Matches.get?_record] at hn
      split at hn
      next => cases hn
      next => exact hkept hn
    | converted hd hgiven hconversion hconvert =>
      rw [Matches.get?_record] at hn
      split at hn
      next heq =>
        cases hn
        have hunsigned := Conversion.isUnsigned_of_convert hconvert
        exact absurd ⟨_, _, _, hd, heq ▸ hgiven, hconversion, hunsigned⟩ hname
      next => exact hkept hn

theorem declaresUnsigned_or_le_of_overflow (h : c.compile = .ok s) {tokens : List String}
    {before after : List (Step Matches)} (hsteps : s.table.steps .options tokens = before ++ after)
    {m : Matches} (hrun : before.foldlM s.recordStep .empty = .ok m)
    (hover : OptionSet.nextCount? m name = none) :
    c.DeclaresUnsigned name ∨ 2 ^ 64 ≤ before.countP (s.counts name) + 1 := by
  by_cases hname : c.DeclaresUnsigned name
  · exact .inl hname
  · right
    have hgives : ∀ step ∈ before, s.table.Gives tokens step := by
      intro step hstep
      apply Table.gives_of_mem_steps
      rw [hsteps]
      exact List.mem_append_left _ hstep
    obtain ⟨rfl, _⟩ := OptionSet.foldlM_eq_ok hrun
    obtain ⟨n, hn, hmax⟩ := OptionSet.exists_of_nextCount?_eq_none hover
    have hle := count_le h hgives hname n hn
    omega

theorem get?_dispatch (h : c.compile = .ok s) {key : Key} {flag : Flag}
    (hflag : s.flags.lookup key = some flag) {m : Matches} {count : UInt64}
    (hcount : OptionSet.nextCount? m flag.name = some count) (token : String)
    (out : List String) :
    (s.dispatch m token key out).data.get? flag.name = some (.uint count) := by
  have hmem := OptionSet.mem_flags_of_lookup hflag
  obtain ⟨⟨hunmatched, hpositional, _, _⟩, _⟩ := exists_decl_of_mem_flags h hmem
  simp only [OptionSet.dispatch, if_neg hpositional, if_neg hunmatched, hflag, hcount]
  rw [Matches.get?_record, if_pos rfl]

/-- Where a parse has come to a token of a flag, it records 1 if there is no unsigned number under
its name, and else one more than the number there. The sum fits into 64 bits, unless the tokens
counted under the name so far are as many as that, or the number is from a value that is declared
under the same name: past the greatest number there is no count, and the parse ends there. -/
theorem count_of_dispatch (h : c.compile = .ok s) {args : ArgVec} {program : String}
    {tokens : List String} (hargs : args.toList = program :: tokens)
    {before after : List (Step Matches)} {key : Key} {place : Place} {token : String}
    (hsteps : s.table.steps .options tokens = before ++ .offer key place token :: after)
    {p : Progress Matches}
    (hrun : (Progress.start .empty program).run (some s.dispatch) before = .ok p)
    {flag : Flag} (hflag : s.flags.lookup key = some flag) (out : List String) :
    ((∀ n, p.data.get? flag.name ≠ some (.uint n)) →
        (s.dispatch p.data token key out).data.get? flag.name = some (.uint 1)) ∧
      ∀ n, p.data.get? flag.name = some (.uint n) →
        (∃ next : UInt64, next.toNat = n.toNat + 1 ∧
            (s.dispatch p.data token key out).data.get? flag.name = some (.uint next)) ∨
          n.toNat + 1 = 2 ^ 64 ∧ s.parse args = .error (.callback .overflow) ∧
            (c.DeclaresUnsigned flag.name ∨ 2 ^ 64 ≤ before.countP (s.counts flag.name) + 1) := by
  have hfold := s.run_dispatch (.start .empty program) before
  rw [hrun] at hfold
  have hrecords : before.foldlM s.recordStep .empty = .ok p.data := hfold.symm
  constructor
  · intro hne
    exact get?_dispatch h hflag (OptionSet.nextCount?_of_ne_uint hne) token out
  · intro n hn
    obtain ⟨next, hnext, hsucc⟩ | ⟨hover, hmax⟩ := OptionSet.nextCount?_cases hn
    · exact .inl ⟨next, hsucc, get?_dispatch h hflag hnext token out⟩
    · refine .inr ⟨hmax, ?_, declaresUnsigned_or_le_of_overflow h hsteps hrecords hover⟩
      -- The steps before this one succeed, so the parse fails here.
      have hmem := OptionSet.mem_flags_of_lookup hflag
      obtain ⟨hfree, _⟩ := exists_decl_of_mem_flags h hmem
      have hrest : (.offer key place token :: after).foldlM s.recordStep p.data =
          .error (.callback .overflow) := by
        rw [List.foldlM_cons, OptionSet.recordStep_offer_of_lookup hfree hflag, hover]
        rfl
      rw [OptionSet.parse_eq_error_iff, hargs, List.tail_cons, hsteps, List.foldlM_append,
        hrecords]
      exact hrest

/-- Value and flag have the name `n`, and the flag counts on from the value. -/
theorem count_of_dispatch_shared :
    let c : Config :=
      ⟨none, none, [.value ⟨"-n=%u"⟩ none, .flag ⟨"-n"⟩ none .keep], .keep, .keep⟩
    let args := ArgVec.ofList ["prog", "-n=41", "-n"]
    let stored : Step Matches := .store (Matches.field "n") "-n=41" (.uint 41)
    let p : Progress Matches := ⟨Matches.empty.record "n" (.uint 41), ["prog"], [], none, []⟩
    ∃ s, c.compile = .ok s ∧ args.toList = "prog" :: ["-n=41", "-n"] ∧
      s.table.steps .options ["-n=41", "-n"] = [stored] ++ .offer ⟨0⟩ .output "-n" :: [] ∧
      (Progress.start .empty "prog").run (some s.dispatch) [stored] = .ok p ∧
      s.flags.lookup ⟨0⟩ = some ⟨"n", .keep⟩ ∧
      ∀ out, (s.dispatch p.data "-n" ⟨0⟩ out).data.get? "n" = some (.uint 42) := by
  intro c args stored p
  have h : c.compile = .ok c.declared := compile_eq_ok_iff.mpr ⟨by decide, rfl⟩
  have hsteps : c.declared.table.steps .options ["-n=41", "-n"] =
      [stored] ++ .offer ⟨0⟩ .output "-n" :: [] := by cbv
  have hrun : (Progress.start .empty "prog").run (some c.declared.dispatch) [stored] = .ok p := rfl
  have hflag : c.declared.flags.lookup ⟨0⟩ = some ⟨"n", .keep⟩ := by decide
  have hn : p.data.get? "n" = some (.uint 41) := by decide
  have hargs : args.toList = "prog" :: ["-n=41", "-n"] := rfl
  refine ⟨c.declared, h, hargs, hsteps, hrun, hflag, fun out => ?_⟩
  have hcount := count_of_dispatch h hargs hsteps hrun hflag out
  obtain ⟨next, hnext, hget⟩ | ⟨hmax, _⟩ := hcount.2 41 hn
  · have heq : next = 42 := UInt64.toNat_inj.mp hnext
    rw [hget, heq]
  · exact absurd hmax (by decide)

/-- A parse comes to the flag with the greatest number under its name. -/
theorem nextCount?_eq_none_of_shared :
    let c : Config :=
      ⟨none, none, [.value ⟨"-n=%u"⟩ none, .flag ⟨"-n"⟩ none .keep], .keep, .keep⟩
    let tokens := ["-n=18446744073709551615", "-n"]
    ∃ s stored p, c.compile = .ok s ∧
      s.table.steps .options tokens = [stored] ++ .offer ⟨0⟩ .output "-n" :: [] ∧
      (Progress.start .empty "prog").run (some s.dispatch) [stored] = .ok p ∧
      s.flags.lookup ⟨0⟩ = some ⟨"n", .keep⟩ ∧
      p.data.get? "n" = some (.uint 18446744073709551615) ∧
      OptionSet.nextCount? p.data "n" = none := by
  intro c tokens
  let stored : Step Matches :=
    .store (Matches.field "n") "-n=18446744073709551615" (.uint 18446744073709551615)
  let p : Progress Matches :=
    ⟨Matches.empty.record "n" (.uint 18446744073709551615), ["prog"], [], none, []⟩
  have h : c.compile = .ok c.declared := compile_eq_ok_iff.mpr ⟨by decide, rfl⟩
  have hsteps : c.declared.table.steps .options tokens =
      [stored] ++ .offer ⟨0⟩ .output "-n" :: [] := by cbv
  exact ⟨c.declared, stored, p, h, hsteps, rfl, by decide, by decide, by decide⟩

end Config

end GroupedOptions
