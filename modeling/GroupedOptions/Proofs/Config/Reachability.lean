import GroupedOptions.Proofs.Config.Compiled
import GroupedOptions.Proofs.Continuation
import GroupedOptions.Proofs.Group.RoundTrip
import GroupedOptions.Proofs.Origin

/-!
# Templates that are refused as unreachable

A declaration is refused if every token that its template could match would be read as the
separator or as a group. That holds of the tokens of an argument vector but not of the fields of
a group, which are looked up whatever they spell. It is also the declared template that is checked,
and a toggle stands for rows under names of which neither is its template.
-/
namespace GroupedOptions

namespace OptionDecl

variable {t : Template} {token : String}

theorem isUnreachable_iff :
    isUnreachable t = true ↔ t.text = "--" ∨ "-o".toList <+: t.text.toList := by
  unfold isUnreachable
  split
  next heq =>
    have htext : t.text = "--" := String.toList_injective heq
    simp [htext]
  next rest heq => simp [heq]
  next hseparator hgroup =>
    simp only [Bool.false_eq_true, false_iff, not_or]
    refine ⟨fun htext => hseparator (by rw [htext]; rfl), ?_⟩
    rintro ⟨rest, hrest⟩
    exact hgroup rest hrest.symm

theorem isUnreachable_of_fault? {d : OptionDecl} {index : ℕ}
    (h : d.fault? index = some (.unreachableTemplate t)) :
    d.templ = t ∧ isUnreachable t = true := by
  unfold fault? at h
  split at h
  · cases h
  split at h
  next hunreachable =>
    cases h
    exact ⟨rfl, hunreachable⟩
  split at h
  · cases h
  cases d with
  | keep _ | discard _ => cases h
  | flag _ _ _ | set _ _ _ | toggle _ _ =>
    simp only at h
    split at h <;> cases h
  | value _ _ =>
    simp only at h
    split at h
    · cases h
    · split at h <;> cases h

theorem isUnreachable_of_fault?_eq_none {d : OptionDecl} {index : ℕ}
    (h : d.fault? index = none) : isUnreachable d.templ = false := by
  unfold fault? at h
  split at h
  · cases h
  split at h
  · cases h
  next hreachable => simpa using hreachable

theorem shape_ne_flag_of_isUnreachable (h : isUnreachable ⟨token⟩ = true) :
    Shape.of token ≠ .flag := by
  obtain htoken | ⟨rest, hrest⟩ := isUnreachable_iff.mp h
  · subst htoken
    decide
  · have hlist : token.toList = '-' :: 'o' :: rest := hrest.symm
    simp [Shape.of, hlist]

theorem prefix_of_prefix_append_cons {l a b : List Char} {m : Char} (h : l <+: a ++ m :: b)
    (hm : m ∉ l) : l <+: a := by
  have hcut : a ++ [m] <+: a ++ m :: b := ⟨b, by simp⟩
  obtain hle | hle := List.prefix_or_prefix_of_prefix h hcut
  · obtain heq | hle := List.prefix_concat_iff.mp hle
    · exact absurd (by simp [heq]) hm
    · exact hle
  · exact absurd (hle.subset (by simp)) hm

theorem isUnreachable_of_match? (h : isUnreachable t = true) {sep : ℕ}
    (hmatch : t.match? token = some sep) : isUnreachable ⟨token⟩ = true := by
  cases hp : t.parts? with
  | none =>
    rw [Template.match?_of_parts?_eq_none hp] at hmatch
    split at hmatch
    next htext => exact htext ▸ h
    next => cases hmatch
  | some p =>
    obtain ⟨hstem, _⟩ := (Template.match?_eq_some_iff hp).mp hmatch
    have hmark : p.mark ≠ '-' ∧ p.mark ≠ 'o' := by
      cases hs : p.spaced <;> simp [Template.Parts.mark, hs]
    have htext := Template.toList_text_of_parts? hp
    obtain hseparator | hgroup := isUnreachable_iff.mp h
    · have hmem : p.mark ∈ "--".toList := by
        rw [← hseparator, htext]
        simp
      exact absurd (by simpa using hmem) hmark.1
    · rw [htext] at hgroup
      have hname : "-o".toList <+: p.name :=
        prefix_of_prefix_append_cons hgroup (by simp [hmark.1, hmark.2])
      have hstart : "-o".toList <+: token.toList := by
        refine (hname.trans ?_).trans hstem
        cases hs : p.spaced <;> simp [Template.Parts.stem, hs]
      exact isUnreachable_iff.mpr (.inr hstart)

end OptionDecl

variable {D : Type}

def Table.without (t : Table D) (templ : Template) : Table D :=
  { t with rows := t.rows.filter fun row => row.templ ≠ templ }

theorem Table.lookup_without {t : Table D} {templ : Template} {token : String}
    (h : templ.match? token = none) : (t.without templ).lookup token = t.lookup token := by
  unfold lookup without
  rw [List.filterMap_filter]
  refine List.filterMap_congr fun row _ => ?_
  by_cases hrow : row.templ = templ
  · simp [hrow, Row.hit?, h]
  · simp [hrow]

/-- A field is looked up whatever it spells, so a row is given the text of its own template. The
token after the group is for another row that awaits a value. -/
theorem Table.exists_step_mem_steps {t : Table D} {row : Row D} (hrow : row ∈ t.rows) :
    ∃ sep, row.templ.match? row.templ.text = some sep ∧
      Hit.step ⟨row, sep⟩ .group row.templ.text ∈
        t.steps .options ["-o", Group.escape row.templ.text, ""] := by
  obtain ⟨sep, hmatch⟩ := row.templ.exists_match?_text
  refine ⟨sep, hmatch, ?_⟩
  have hmem : (⟨row, sep⟩ : Hit D) ∈ t.lookup row.templ.text := t.mem_lookup.mpr ⟨hrow, hmatch⟩
  have hnot : (⟨row, sep⟩ : Hit D).awaitsValue row.templ.text = false := by
    rw [Bool.eq_false_iff, Ne, Hit.awaitsValue_iff (t.mem_lookup.mp hmem).2]
    exact row.templ.not_isSpacedName_text
  have hitem (value : Option String) : Hit.step ⟨row, sep⟩ .group row.templ.text ∈
      t.itemSteps (.option .group row.templ.text value) := by
    rw [t.itemSteps_of_matched (List.ne_nil_of_mem hmem),
      ← Hit.stepWith_of_not_awaitsValue hnot .group (value.getD "")]
    exact List.mem_map_of_mem hmem
  have hbare : Shape.of "-o" = .group "" := by decide
  rw [t.steps_group hbare, Group.fields_escape]
  by_cases hw : t.Awaits row.templ.text
  · rw [(t.groupSteps_of_awaits hw []).2]
    exact List.mem_append_left _ (hitem _)
  · rw [t.groupSteps_of_not_awaits hw, List.append_assoc]
    exact List.mem_append_left _ (hitem _)

/-- A row under a template that is refused as unreachable has no part in a parse in which the
template matches no field of a group, so no token outside of groups is ever given to it. A field
is: there are tokens of which one is a group and gives the row the text of its template. -/
theorem parse_of_unreachableTemplate {d : OptionDecl} {index : ℕ} {templ : Template}
    (h : d.fault? index = some (.unreachableTemplate templ)) (t : Table D) :
    (∀ callback data args,
      (∀ field, IsField args.toList.tail (.ok field) → templ.match? field = none) →
        parse t callback data args = parse (t.without templ) callback data args) ∧
      ∀ row ∈ t.rows, row.templ = templ → ∃ sep, templ.match? templ.text = some sep ∧
        Hit.step ⟨row, sep⟩ .group templ.text ∈
          t.steps .options ["-o", Group.escape templ.text, ""] := by
  obtain ⟨_, hunreachable⟩ := OptionDecl.isUnreachable_of_fault? h
  constructor
  · intro callback data args hfields
    have hlookup : ∀ token, IsOption args.toList.tail token →
        t.lookup token = (t.without templ).lookup token := by
      rintro token (⟨_, hflag⟩ | hfield)
      · have hnone : templ.match? token = none := by
          rw [Option.eq_none_iff_forall_ne_some]
          intro sep hmatch
          have hlike := OptionDecl.isUnreachable_of_match? hunreachable hmatch
          exact OptionDecl.shape_ne_flag_of_isUnreachable hlike hflag
        exact (Table.lookup_without hnone).symm
      · exact (Table.lookup_without (hfields token hfield)).symm
    cases hargs : args.toList with
    | nil => simp only [parse, hargs]
    | cons program tokens =>
      rw [hargs, List.tail_cons] at hlookup
      rw [parse_eq_ofRun hargs, parse_eq_ofRun hargs, Table.steps_congr hlookup]
  · rintro row hrow rfl
    exact Table.exists_step_mem_steps hrow

/-- The token `-ox` is not given to the row under its own text, but the field of that text is. -/
theorem parse_of_unreachableTemplate_attached :
    let d := OptionDecl.flag ⟨"-ox"⟩ none .keep
    let t : Table Nat := ⟨[.forKey "-ox" ⟨0⟩, .forKey "x" .keep], 1⟩
    let args := ArgVec.ofList ["prog", "-ox"]
    d.fault? 0 = some (.unreachableTemplate ⟨"-ox"⟩) ∧
      (∀ field, IsField args.toList.tail (.ok field) → Template.match? ⟨"-ox"⟩ field = none) ∧
      parse t (some countingCallback) 0 args =
        parse (t.without ⟨"-ox"⟩) (some countingCallback) 0 args ∧
      ∃ row ∈ t.rows, row.templ = ⟨"-ox"⟩ ∧ ∃ sep, Template.match? ⟨"-ox"⟩ "-ox" = some sep ∧
        Hit.step ⟨row, sep⟩ .group "-ox" ∈ t.steps .options ["-o", Group.escape "-ox", ""] := by
  intro d t args
  have h : d.fault? 0 = some (.unreachableTemplate ⟨"-ox"⟩) := by decide
  have hfields : ∀ field, IsField args.toList.tail (.ok field) →
      Template.match? ⟨"-ox"⟩ field = none := by
    rintro field ⟨group, ⟨before, after, htokens⟩ | ⟨token, htoken, hshape, _⟩, hfield⟩
    · have hlength : (before ++ ["-o", group] ++ after).length = 1 := congrArg List.length htokens
      simp only [List.length_append, List.length_cons] at hlength
      omega
    · have hgroup : group = "x" := by
        have hattached : Shape.of "-ox" = .group "x" := by decide
        rw [List.mem_singleton.mp htoken, hattached] at hshape
        cases hshape
        rfl
      have hdecoded : Group.fields "x" = [.ok "x"] := by cbv
      rw [hgroup, hdecoded] at hfield
      cases List.mem_singleton.mp hfield
      decide
  have hparse := parse_of_unreachableTemplate h t
  have hrow : (.forKey "-ox" ⟨0⟩ : Row Nat) ∈ t.rows := List.mem_cons_self
  exact ⟨h, hfields, hparse.1 _ _ _ hfields, _, hrow, rfl, hparse.2 _ hrow rfl⟩

/-- A group hands the row under the template `--`, which is refused as unreachable, to the
callback. -/
theorem calls_of_unreachableTemplate :
    let d := OptionDecl.flag ⟨"--"⟩ none .keep
    let t : Table Nat := ⟨[.forKey d.templ.text ⟨0⟩], 1⟩
    d.fault? 0 = some (.unreachableTemplate d.templ) ∧
      (parse t (some countingCallback) 0 (.ofList ["prog", "-o", "--"])).calls =
        [⟨"--", ⟨0⟩, ["prog"]⟩] := by
  intro d t
  exact ⟨by decide, by cbv⟩

namespace Config

variable {c : Config} {s : OptionSet}

/-- Of the rows of a valid declaration only the one under the name of a toggle may have a template
that would be refused. -/
theorem exists_toggle_of_isUnreachable {d : OptionDecl} {index : ℕ}
    (hfault : d.fault? index = none) {key : Key} {row : Row Matches} (hrow : row ∈ d.rows key)
    (h : OptionDecl.isUnreachable row.templ = true) :
    ∃ templ name, d = .toggle templ name ∧ row.templ = ⟨Table.toggleName templ.text⟩ := by
  have hdecl := OptionDecl.isUnreachable_of_fault?_eq_none hfault
  cases d with
  | toggle templ name =>
    rcases List.mem_pair.mp hrow with rfl | rfl
    · exact ⟨templ, name, rfl, rfl⟩
    · have hno : ("no" ++ Table.toggleName templ.text).toList =
          'n' :: 'o' :: (Table.toggleName templ.text).toList := by simp
      simp [OptionDecl.isUnreachable, hno] at h
  | flag _ _ _ | value _ _ | set _ _ _ | keep _ | discard _ =>
    rw [List.mem_singleton.mp hrow] at h
    exact absurd (h.symm.trans hdecl) Bool.true_eq_false.mp

/-- No row of a compiled set is under the separator or a group, which a check keeps out, exactly if
no toggle has such a name after its mark, where the check does not look. -/
theorem rows_reachable_iff (h : c.compile = .ok s) :
    (∀ row ∈ s.table.rows, ¬(row.templ.text = "--" ∨ "-o".toList <+: row.templ.text.toList)) ↔
      ∀ templ name, .toggle templ name ∈ c.options →
        ¬(Table.toggleName templ.text = "--" ∨
          "-o".toList <+: (Table.toggleName templ.text).toList) := by
  constructor
  · intro hreach templ name hd
    obtain ⟨key, hrows⟩ := exists_rows_subset h hd
    exact hreach _ (hrows List.mem_cons_self)
  · intro hnames row hrow hunreachable
    obtain ⟨d, hd, key, hmem, _⟩ := exists_decl_of_mem_rows h hrow
    obtain ⟨index, hfault⟩ := fault?_eq_none_of_compile h hd
    have hrefused := OptionDecl.isUnreachable_iff.mpr hunreachable
    obtain ⟨templ, name, rfl, htempl⟩ := exists_toggle_of_isUnreachable hfault hmem hrefused
    rw [htempl] at hunreachable
    exact hnames templ name hd hunreachable

theorem rows_reachable_iff_debug :
    let c : Config :=
      ⟨none, none, [.toggle ⟨"[no]debug"⟩ none, .value ⟨"-p=%u"⟩ none], .keep, .keep⟩
    ∃ s, c.compile = .ok s ∧
      s.table.rows.map (·.templ.text) = ["debug", "nodebug", "-p=%u"] ∧
      ∀ row ∈ s.table.rows,
        ¬(row.templ.text = "--" ∨ "-o".toList <+: row.templ.text.toList) := by
  intro c
  have h : c.compile = .ok c.declared := compile_eq_ok_iff.mpr ⟨by decide, rfl⟩
  have hname : Table.toggleName "[no]debug" = "debug" := by decide
  refine ⟨_, h, by decide, (rows_reachable_iff h).mpr fun templ name hd => ?_⟩
  have hd' : templ = ⟨"[no]debug"⟩ ∧ name = none := by simpa [c] using hd
  rw [hd'.1, hname]
  decide

/-- The toggle `[no]-o` is valid, and one of its rows is under the template `-o`. -/
theorem exists_row_group :
    let c : Config := ⟨none, none, [.toggle ⟨"[no]-o"⟩ none], .keep, .keep⟩
    ∃ s, c.compile = .ok s ∧ s.table.rows.map (·.templ.text) = ["-o", "no-o"] := by
  intro c
  exact ⟨c.declared, compile_eq_ok_iff.mpr ⟨by decide, rfl⟩, by decide⟩

end Config

end GroupedOptions
