import GroupedOptions.Proofs.Shell.Commands
import GroupedOptions.Proofs.Shell.Exports

/-!
# The names of exported variables are identifiers

A name that is recorded becomes letters, digits and underscores, and the prefix goes before it as it
stands. So it is the prefix that decides whether a shell takes an export line for an assignment:
it has to be an identifier, or empty as long as no recorded name begins with a digit. The main
statement is that this is so for every parse, and that each export line is then one assignment.
-/
namespace GroupedOptions

namespace Shell

/-- A name of a variable as a shell has it: a letter or an underscore, and then letters, digits and
underscores. -/
def isIdentifier (name : String) : Bool :=
  match name.toList with
  | [] => false
  | c :: cs => (c.isAlpha || c = '_') && cs.all isIdentifierChar

theorem isIdentifier_append {name suffix : String} (h : suffix.toList.all isIdentifierChar) :
    isIdentifier (name ++ suffix) ↔ isIdentifier name ∨ name = "" ∧ isIdentifier suffix := by
  unfold isIdentifier
  rw [String.toList_append, ← String.toList_eq_nil_iff]
  cases name.toList with
  | nil => simp
  | cons c cs => simp [h]

theorem isOrdinary_of_isIdentifier {name : String} (h : isIdentifier name) :
    ∀ c ∈ name.toList, IsOrdinary c := by
  unfold isIdentifier at h
  split at h
  next => cases h
  next c cs hname =>
    simp only [Bool.and_eq_true, Bool.or_eq_true, decide_eq_true_eq, List.all_eq_true] at h
    obtain ⟨hfirst, hrest⟩ := h
    intro d hd
    rw [hname] at hd
    rcases List.mem_cons.mp hd with rfl | hd
    · refine isOrdinary_of_isIdentifierChar ?_
      rcases hfirst with halpha | rfl
      · simp [isIdentifierChar, Char.isAlphanum, halpha]
      · decide
    · exact isOrdinary_of_isIdentifierChar (hrest d hd)

def BeginsWithDigit (name : String) : Prop := ∃ c ∈ name.toList.head?, c.isDigit

theorem all_isIdentifierChar_variableName (name : String) :
    (variableName name).toList.all isIdentifierChar := by
  rw [variableName, String.toList_ofList, List.all_map, List.all_eq_true]
  intro c _
  exact isIdentifierChar_of_isNameChar (isNameChar_variableChar c)

/-- A digit stays one, and everything else may stand in front. -/
theorem mayBegin_variableChar (c : Char) :
    ((variableChar c).isAlpha || variableChar c = '_') = !c.isDigit := by
  unfold variableChar
  split
  next h =>
    by_cases halpha : c.isAlpha
    · have hdigit : c.isDigit = false := by
        rw [Bool.eq_false_iff]
        intro hdigit
        simp only [Char.isAlpha, Char.isUpper, Char.isLower, Char.isDigit, Bool.or_eq_true,
          Bool.and_eq_true, decide_eq_true_eq, ge_iff_le] at halpha hdigit
        grind
      have hupper : c.toUpper.isAlpha := by simpa [Char.isAlpha] using halpha
      simp [hdigit, hupper]
    · have hlower : ¬ c.isLower := by
        intro hlower
        simp [Char.isAlpha, hlower] at halpha
      have hdigit : c.isDigit := by simpa [Char.isAlphanum, halpha] using h
      have hunderscore : c ≠ '_' := by
        rintro rfl
        cases hdigit
      simp [Char.toUpper_eq_of_not_isLower hlower, halpha, hdigit, hunderscore]
  next h =>
    have hdigit : c.isDigit = false := by
      simp only [Char.isAlphanum, Bool.not_eq_true, Bool.or_eq_false_iff] at h
      exact h.2
    simp [hdigit]

theorem isIdentifier_variableName {name : String} (hne : name ≠ "") :
    isIdentifier (variableName name) ↔ ¬ BeginsWithDigit name := by
  have hrest := all_isIdentifierChar_variableName name
  unfold isIdentifier BeginsWithDigit
  rw [variableName, String.toList_ofList] at hrest ⊢
  cases hname : name.toList with
  | nil => exact absurd (String.toList_eq_nil_iff.mp hname) hne
  | cons c cs =>
    rw [hname, List.map_cons, List.all_cons, Bool.and_eq_true] at hrest
    simp [mayBegin_variableChar, hrest.2]

/-- The prefix makes identifiers of all variables exactly if it is one, or is empty and no recorded
name begins with a digit. -/
theorem isIdentifier_exports_iff {m : Matches} (hne : "" ∉ m.names) (varPrefix : String) :
    (∀ e ∈ exports m varPrefix, isIdentifier e.1) ↔
      isIdentifier varPrefix ∨ varPrefix = "" ∧ ∀ name ∈ m.names, ¬ BeginsWithDigit name := by
  have hname {name : String} (hmem : name ∈ m.names) :
      isIdentifier (varPrefix ++ variableName name) ↔
        isIdentifier varPrefix ∨ varPrefix = "" ∧ ¬ BeginsWithDigit name := by
    rw [isIdentifier_append (all_isIdentifierChar_variableName name),
      isIdentifier_variableName (ne_of_mem_of_not_mem hmem hne)]
  have hpositionals : isIdentifier (varPrefix ++ "POSITIONALS") ↔
      isIdentifier varPrefix ∨ varPrefix = "" := by
    rw [isIdentifier_append (by decide), and_iff_left (by decide)]
  have hall : (∀ e ∈ exports m varPrefix, isIdentifier e.1) ↔
      (∀ name ∈ m.names, isIdentifier (varPrefix ++ variableName name)) ∧
        isIdentifier (varPrefix ++ "POSITIONALS") := by
    rw [← List.forall_mem_map (P := fun v => isIdentifier v), map_fst_exports]
    simp [or_imp, forall_and]
  rw [hall, hpositionals, forall₂_congr fun _ => hname]
  by_cases hvar : isIdentifier varPrefix
  · simp [hvar]
  · simp only [hvar, Bool.false_eq_true, false_or]
    constructor
    · rintro ⟨hnames, hempty⟩
      exact ⟨hempty, fun name hmem => (hnames name hmem).2⟩
    · rintro ⟨hempty, hnames⟩
      exact ⟨fun name hmem => ⟨hempty, hnames name hmem⟩, hempty⟩

theorem commands?_script_of_isIdentifier {m : Matches} {varPrefix : String}
    (h : ∀ e ∈ exports m varPrefix, isIdentifier e.1) (argv : ArgVec) :
    commands? (script m argv varPrefix) =
      some (((exports m varPrefix).map fun e => exportCommand e.1 e.2) ++
        [setCommand (argv.toList.drop 1)]) := by
  have hexports : ReadsAs ((exports m varPrefix).flatMap fun e => (exportLine e.1 e.2).toList)
      ((exports m varPrefix).map fun e => exportCommand e.1 e.2) :=
    ReadsAs.flatMap fun e hmem => readsAs_exportLine (isOrdinary_of_isIdentifier (h e hmem)) e.2
  have hall := hexports.append (readsAs_setLine (argv.toList.drop 1))
  refine ReadsAs.commands?_eq ?_
  rw [script_eq]
  simpa [List.flatMap_map] using hall

end Shell

namespace Config

variable {c : Config} {s : OptionSet}

theorem empty_not_mem_names (h : c.compile = .ok s) {args out : ArgVec} {m : Matches}
    (hparse : s.parse args = .ok (m, out)) : "" ∉ m.names := by
  intro hmem
  obtain ⟨d, hd, hname⟩ := List.mem_filterMap.mp (names_subset_of_parse_ok h hparse hmem)
  obtain ⟨index, hnone⟩ := fault?_eq_none_of_compile h hd
  unfold OptionDecl.fault? at hnone
  rw [if_pos hname] at hnone
  split at hnone
  · cases hnone
  · split at hnone <;> cases hnone

/-- A script is its export lines and the line that sets the arguments. Every line assigns to an
identifier exactly if the prefix is one, or is empty and no recorded name begins with a digit; and
then a shell reads each line as one assignment. -/
theorem isIdentifier_exports_of_parse_ok (h : c.compile = .ok s) {args out : ArgVec} {m : Matches}
    (hparse : s.parse args = .ok (m, out)) (varPrefix : String) :
    Shell.script m out varPrefix =
        String.join ((Shell.exports m varPrefix).map fun e => Shell.exportLine e.1 e.2) ++
          Shell.setLine (out.toList.drop 1) ∧
      ((∀ e ∈ Shell.exports m varPrefix, Shell.isIdentifier e.1) ↔
        Shell.isIdentifier varPrefix ∨
          varPrefix = "" ∧ ∀ name ∈ m.names, ¬ Shell.BeginsWithDigit name) ∧
      ((∀ e ∈ Shell.exports m varPrefix, Shell.isIdentifier e.1) →
        Shell.commands? (Shell.script m out varPrefix) =
          some (((Shell.exports m varPrefix).map fun e => Shell.exportCommand e.1 e.2) ++
            [Shell.setCommand (out.toList.drop 1)])) := by
  refine ⟨Shell.script_eq m out varPrefix, ?_, ?_⟩
  · exact Shell.isIdentifier_exports_iff (empty_not_mem_names h hparse) varPrefix
  · intro hidentifiers
    exact Shell.commands?_script_of_isIdentifier hidentifiers out

/-- Under the empty prefix the name `fs-type` makes an identifier. -/
theorem isIdentifier_exports_of_parse_ok_mount :
    let c : Config := ⟨none, some "", [.value ⟨"fs-type=%s"⟩ none], .keep, .keep⟩
    let args := ArgVec.ofList ["prog", "-o", "fs-type=9p"]
    ∃ s m out, c.compile = .ok s ∧ s.parse args = .ok (m, out) ∧
      Shell.exports m c.effectivePrefix = [("FS_TYPE", "9p"), ("POSITIONALS", "")] ∧
      ∀ e ∈ Shell.exports m c.effectivePrefix, Shell.isIdentifier e.1 := by
  intro c args
  let s := c.declared
  let m : Matches := Matches.empty.record "fs-type" (.str "9p")
  have h : c.compile = .ok s := compile_eq_ok_iff.mpr ⟨by decide, rfl⟩
  have hfold : (s.table.steps .options args.toList.tail).foldlM s.recordStep .empty = .ok m := by
    decide +kernel
  obtain ⟨out, hparse⟩ := OptionSet.exists_parse_eq_ok_iff.mpr hfold
  have hnames : ∀ name ∈ m.names, ¬ Shell.BeginsWithDigit name := by
    intro name hname
    rw [show m.names = ["fs-type"] from rfl, List.mem_singleton] at hname
    subst hname
    simp [Shell.BeginsWithDigit]
  obtain ⟨_, hiff, _⟩ := isIdentifier_exports_of_parse_ok h hparse c.effectivePrefix
  exact ⟨s, m, out, h, hparse, by decide, hiff.mpr (Or.inr ⟨rfl, hnames⟩)⟩

/-- Under the empty prefix the name `9p` makes no identifier, and a prefix with a semicolon runs a
command of its own. -/
theorem not_isIdentifier_exports :
    let c : Config := ⟨none, some "", [.flag ⟨"9p"⟩ none .keep], .keep, .keep⟩
    let args := ArgVec.ofList ["prog", "-o", "9p"]
    (∃ s m out, c.compile = .ok s ∧ s.parse args = .ok (m, out) ∧
      Shell.exports m c.effectivePrefix = [("9P", "1"), ("POSITIONALS", "")] ∧
      Shell.isIdentifier "9P" = false) ∧
    ∃ s m out, c.compile = .ok s ∧ s.parse (.ofList ["prog"]) = .ok (m, out) ∧
      Shell.commands? (Shell.script m out "V=;reboot;A_") =
        some [⟨[Shell.plain "export".toList, Shell.plain "V=".toList], []⟩,
          ⟨[Shell.plain "reboot".toList], []⟩, ⟨[Shell.plain "A_POSITIONALS=".toList], []⟩,
          Shell.setCommand []] := by
  intro c args
  let s := c.declared
  let m : Matches := Matches.empty.record "9p" (.uint 1)
  have h : c.compile = .ok s := compile_eq_ok_iff.mpr ⟨by decide, rfl⟩
  have hfold : (s.table.steps .options args.toList.tail).foldlM s.recordStep .empty = .ok m := by
    decide +kernel
  obtain ⟨out, hparse⟩ := OptionSet.exists_parse_eq_ok_iff.mpr hfold
  exact ⟨⟨s, m, out, h, hparse, by decide, by decide⟩, s, .empty, .ofList ["prog"], h, rfl,
    by decide +kernel⟩

end Config

end GroupedOptions
