import GroupedOptions.Proofs.OptionSet.Counting
import GroupedOptions.Shell

/-!
# The names of exported variables

A script exports what is recorded under a name in a variable of its own, as long as no two names
differ only in the case of letters and in the marks between them, and none is spelled like the
variable of the positional arguments. The main statement is that nothing else makes two exports of
a script share a variable, and that names may be recorded only if they are declared.
-/
namespace GroupedOptions

namespace Matches

def names (m : Matches) : List String := m.values.entries.map Prod.fst

theorem nodup_names (m : Matches) : m.names.Nodup := by
  refine List.Pairwise.map _ ?_ m.values.sorted
  intro a b hlt heq
  exact String.lt_irrefl b.1 (heq ▸ hlt)

theorem isSome_get?_of_mem_names {m : Matches} {name : String} (h : name ∈ m.names) :
    (m.get? name).isSome = true := by
  obtain ⟨⟨n, v⟩, hmem, rfl⟩ := List.mem_map.mp h
  unfold get? NamedValues.get?
  rw [Option.isSome_iff_ne_none, Ne, List.lookup_eq_none_iff]
  intro hnone
  simpa using hnone _ hmem

end Matches

namespace Shell

/-- What a script exports: variables and their texts, in the order of its lines. -/
def exports (m : Matches) (varPrefix : String) : List (String × String) :=
  (m.values.entries.map fun e => (varPrefix ++ variableName e.1, e.2.display)) ++
    [(varPrefix ++ "POSITIONALS", quoteAll m.positionals)]

theorem script_eq (m : Matches) (argv : ArgVec) (varPrefix : String) :
    script m argv varPrefix =
      String.join ((exports m varPrefix).map fun e => exportLine e.1 e.2) ++
        setLine (argv.toList.drop 1) := by
  simp [script, exports, Function.comp_def, String.join_append]

theorem map_fst_exports (m : Matches) (varPrefix : String) :
    (exports m varPrefix).map Prod.fst =
      (m.names.map fun n => varPrefix ++ variableName n) ++ [varPrefix ++ "POSITIONALS"] := by
  simp [exports, Matches.names, Function.comp_def]

/-- No two of the names have the same variable, and none has that of the positional arguments. -/
structure Separate (names : List String) : Prop where
  distinct : ∀ n ∈ names, ∀ n' ∈ names, variableName n = variableName n' → n = n'
  free : ∀ n ∈ names, variableName n ≠ "POSITIONALS"

theorem Separate.subset {names declared : List String} (h : Separate declared)
    (hsubset : names ⊆ declared) : Separate names where
  distinct n hn n' hn' := h.distinct n (hsubset hn) n' (hsubset hn')
  free n hn := h.free n (hsubset hn)

/-- The variables of a script are distinct exactly if those of the names are. -/
theorem nodup_exports_iff (m : Matches) (varPrefix : String) :
    ((exports m varPrefix).map Prod.fst).Nodup ↔ Separate m.names := by
  rw [map_fst_exports, List.nodup_append_comm, List.singleton_append, List.nodup_cons,
    List.nodup_map_iff_inj_on m.nodup_names]
  constructor
  · rintro ⟨hfree, hdistinct⟩
    constructor
    · intro n hn n' hn' heq
      exact hdistinct n hn n' hn' (by rw [heq])
    · intro n hn heq
      exact hfree (List.mem_map.mpr ⟨n, hn, by rw [heq]⟩)
  · rintro ⟨hdistinct, hfree⟩
    constructor
    · intro hmem
      obtain ⟨n, hn, heq⟩ := List.mem_map.mp hmem
      exact hfree n hn ((String.append_right_inj _).mp heq)
    · intro n hn n' hn' heq
      exact hdistinct n hn n' hn' ((String.append_right_inj _).mp heq)

end Shell

namespace Config

variable {c : Config} {s : OptionSet}

theorem Notes.declared {m m' : Matches} {step : Step Matches} (h : c.Notes s m step m')
    (hm : ∀ name, (m.get? name).isSome → name ∈ c.options.filterMap OptionDecl.name?) :
    ∀ name, (m'.get? name).isSome → name ∈ c.options.filterMap OptionDecl.name? := by
  have hrecord {d : OptionDecl} {given : String} {v : Value} (hd : d ∈ c.options)
      (hgiven : d.name? = some given) : ∀ name, ((m.record given v).get? name).isSome →
        name ∈ c.options.filterMap OptionDecl.name? := by
    intro name hsome
    rw [Matches.get?_record] at hsome
    split at hsome
    next heq => exact List.mem_filterMap.mpr ⟨d, hd, heq ▸ hgiven⟩
    next => exact hm name hsome
  cases h with
  | nothing | positional => exact hm
  | flag _ hd hgiven => exact hrecord hd hgiven
  | fixed hd hgiven => exact hrecord hd hgiven
  | converted hd hgiven _ _ => exact hrecord hd hgiven

theorem names_subset_of_parse_ok (h : c.compile = .ok s) {args out : ArgVec} {m : Matches}
    (hparse : s.parse args = .ok (m, out)) :
    m.names ⊆ c.options.filterMap OptionDecl.name? := by
  have hfold := OptionSet.exists_parse_eq_ok_iff.mp ⟨out, hparse⟩
  obtain ⟨rfl, _⟩ := OptionSet.foldlM_eq_ok hfold
  intro name hname
  refine notes_induction (motive := fun _ m => ∀ name, (m.get? name).isSome →
    name ∈ c.options.filterMap OptionDecl.name?) h (fun _ => Table.gives_of_mem_steps) ?_ ?_ name
      (Matches.isSome_get?_of_mem_names hname)
  · intro name hsome
    cases hsome
  · intro _ m step m' hm hnotes
    exact hnotes.declared hm

/-- The script of a parse is its exports and the line that sets the arguments. No export is
overwritten by a later one exactly if the recorded names have variables of their own, and that is so
in every parse if it is so of the declared names. -/
theorem nodup_exports_of_parse_ok (h : c.compile = .ok s) {args out : ArgVec} {m : Matches}
    (hparse : s.parse args = .ok (m, out)) (varPrefix : String) :
    Shell.script m out varPrefix =
        String.join ((Shell.exports m varPrefix).map fun e => Shell.exportLine e.1 e.2) ++
          Shell.setLine (out.toList.drop 1) ∧
      (((Shell.exports m varPrefix).map Prod.fst).Nodup ↔ Shell.Separate m.names) ∧
      (Shell.Separate (c.options.filterMap OptionDecl.name?) →
        ((Shell.exports m varPrefix).map Prod.fst).Nodup) := by
  refine ⟨Shell.script_eq m out varPrefix, Shell.nodup_exports_iff m varPrefix, ?_⟩
  intro hseparate
  apply (Shell.nodup_exports_iff m varPrefix).mpr
  exact hseparate.subset (names_subset_of_parse_ok h hparse)

/-- The names `verbose` and `fs-name` have variables of their own, whatever is parsed. -/
theorem nodup_exports_of_parse_ok_mount :
    let c : Config :=
      ⟨none, none, [.flag ⟨"-v"⟩ (some "verbose") .keep, .value ⟨"fs-name=%s"⟩ none], .keep, .keep⟩
    let args := ArgVec.ofList ["prog", "-v", "-o", "fs-name=a b"]
    ∃ s m out, c.compile = .ok s ∧ s.parse args = .ok (m, out) ∧
      (Shell.exports m "GOPT_").map Prod.fst =
        ["GOPT_FS_NAME", "GOPT_VERBOSE", "GOPT_POSITIONALS"] ∧
      ((Shell.exports m "GOPT_").map Prod.fst).Nodup := by
  intro c args
  let s := c.declared
  let m : Matches :=
    (Matches.empty.record "verbose" (.uint 1)).record "fs-name" (.str "a b")
  have h : c.compile = .ok s := compile_eq_ok_iff.mpr ⟨by decide, rfl⟩
  have hfold : (s.table.steps .options args.toList.tail).foldlM s.recordStep .empty = .ok m := by
    decide +kernel
  obtain ⟨out, hparse⟩ := OptionSet.exists_parse_eq_ok_iff.mpr hfold
  have hseparate : Shell.Separate (c.options.filterMap OptionDecl.name?) :=
    ⟨by decide, by decide⟩
  obtain ⟨_, _, hnodup⟩ := nodup_exports_of_parse_ok h hparse "GOPT_"
  exact ⟨s, m, out, h, hparse, by decide, hnodup hseparate⟩

/-- Of the names `a-b` and `a_b` one export overwrites the other, and the name `positionals` has the
variable of the positional arguments. -/
theorem not_nodup_exports :
    let c : Config := ⟨none, none, [.flag ⟨"a-b"⟩ none .keep, .set ⟨"a_b"⟩ none 7,
      .flag ⟨"positionals"⟩ none .keep], .keep, .keep⟩
    let args := ArgVec.ofList ["prog", "-o", "a-b,a_b,positionals"]
    ∃ s m out, c.compile = .ok s ∧ s.parse args = .ok (m, out) ∧
      Shell.exports m "GOPT_" = [("GOPT_A_B", "1"), ("GOPT_A_B", "7"), ("GOPT_POSITIONALS", "1"),
        ("GOPT_POSITIONALS", "")] ∧
      ¬ ((Shell.exports m "GOPT_").map Prod.fst).Nodup := by
  intro c args
  let s := c.declared
  let m : Matches := ((Matches.empty.record "a-b" (.uint 1)).record "a_b" (.int 7)).record
    "positionals" (.uint 1)
  have h : c.compile = .ok s := compile_eq_ok_iff.mpr ⟨by decide, rfl⟩
  have hfold : (s.table.steps .options args.toList.tail).foldlM s.recordStep .empty = .ok m := by
    decide +kernel
  obtain ⟨out, hparse⟩ := OptionSet.exists_parse_eq_ok_iff.mpr hfold
  exact ⟨s, m, out, h, hparse, by decide, by decide⟩

end Config

end GroupedOptions
