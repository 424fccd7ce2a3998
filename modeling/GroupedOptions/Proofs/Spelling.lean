import GroupedOptions.Proofs.Continuation
import GroupedOptions.Proofs.Group.Concat

/-!
# Spellings that come to the same

The fields of two groups may as well stand in one, and the value after a bare name may as well be
attached to it. Either way the steps are the same, so that a parse that comes to them leaves the
same behind, whatever follows. Only the error of a field that does not decode tells two groups
from one, since it names the group.
-/
namespace GroupedOptions

variable {D : Type} {callback : Option (Callback D)} {R : ParseError → ParseError → Prop}

/-- The same step, or two failures whose errors `R` relates. -/
inductive Step.Agrees (R : ParseError → ParseError → Prop) : Step D → Step D → Prop
  | same (step) : Agrees R step step
  | fail {e e'} : R e e' → Agrees R (.fail e) (.fail e')

/-- The same outcome, or failures with the same data and calls whose errors `R` relates. -/
inductive Outcome.Agrees (R : ParseError → ParseError → Prop) : Outcome D → Outcome D → Prop
  | same (outcome) : Agrees R outcome outcome
  | fail {data calls e e'} : R e e' →
      Agrees R ⟨data, calls, .error e⟩ ⟨data, calls, .error e'⟩

inductive Group.Agrees (R : ParseError → ParseError → Prop) :
    Except Group.DecodeError String → Except Group.DecodeError String → Prop
  | same (field) : Agrees R field field
  | error {e e'} : R (.invalidGroup e) (.invalidGroup e') → Agrees R (.error e) (.error e')

theorem forall₂_agrees_refl (steps : List (Step D)) :
    List.Forall₂ (Step.Agrees R) steps steps :=
  List.forall₂_same.mpr fun step _ => .same step

theorem Progress.run_agrees {steps steps' : List (Step D)}
    (h : List.Forall₂ (Step.Agrees R) steps steps') (s : Progress D) :
    Outcome.Agrees R (.ofRun (s.run callback steps)) (.ofRun (s.run callback steps')) := by
  induction h generalizing s with
  | nil => exact .same _
  | @cons step _ _ _ hstep _ ih =>
    cases hstep with
    | fail he => exact .fail he
    | same =>
      cases htake : s.take callback step with
      | error failure =>
        simp only [run, htake]
        exact .same _
      | ok s' =>
        simp only [run, htake]
        exact ih s'

/-- The error of a field that does not decode names the group of both, or only that of the field. -/
def Group.NamesPart (group group' : String) (e e' : ParseError) : Prop :=
  e = .invalidGroup ⟨group ++ "," ++ group'⟩ ∧
    (e' = .invalidGroup ⟨group⟩ ∨ e' = .invalidGroup ⟨group'⟩)

/-- The fields of two groups are those of the groups put together with a comma. -/
theorem Group.forall₂_agrees_fields {group : String} (h : endsUnpaired '\\' group.toList = false)
    (group' : String) : List.Forall₂ (Group.Agrees (NamesPart group group'))
      (fields (group ++ "," ++ group')) (fields group ++ fields group') := by
  have hpart : ∀ part, part = group ∨ part = group' → ∀ raw : List (List UInt8),
      List.Forall₂ (Group.Agrees (NamesPart group group'))
        (raw.map fun octets =>
          (Text.ofOctets? octets).elim (.error ⟨group ++ "," ++ group'⟩) .ok)
        (raw.map fun octets => (Text.ofOctets? octets).elim (.error ⟨part⟩) .ok) := by
    intro part hpart raw
    rw [List.forall₂_map_left_iff, List.forall₂_map_right_iff, List.forall₂_same]
    intro octets _
    cases Text.ofOctets? octets with
    | some field => exact .same _
    | none => exact .error ⟨rfl, by rcases hpart with rfl | rfl <;> simp⟩
  unfold fields
  rw [rawFields_append_comma h, List.map_append]
  exact List.rel_append (hpart group (.inl rfl) _) (hpart group' (.inr rfl) _)

namespace Table

variable (t : Table D)

theorem groupSteps_append {fields : List (Except Group.DecodeError String)}
    (h : ∀ field, .ok field ∈ fields → ¬ t.Awaits field)
    (fields' : List (Except Group.DecodeError String)) :
    t.groupSteps (fields ++ fields') =
      ((t.groupSteps fields).1 ++ (t.groupSteps fields').1, (t.groupSteps fields').2) := by
  induction fields with
  | nil => rfl
  | cons first fields ih =>
    have hrest := ih fun field hmem => h field (List.mem_cons_of_mem _ hmem)
    cases first with
    | error e => simp [groupSteps, hrest]
    | ok field =>
      have hw := h field List.mem_cons_self
      rw [List.cons_append, t.groupSteps_of_not_awaits hw, t.groupSteps_of_not_awaits hw, hrest,
        List.append_assoc]

/-- Fields that agree add steps that agree, and so do the tokens after them. -/
theorem forall₂_agrees_groupSteps {fields fields' : List (Except Group.DecodeError String)}
    (h : List.Forall₂ (Group.Agrees R) fields fields') (tokens : List String) :
    List.Forall₂ (Step.Agrees R)
      ((t.groupSteps fields).1 ++ t.steps (t.groupSteps fields).2 tokens)
      ((t.groupSteps fields').1 ++ t.steps (t.groupSteps fields').2 tokens) := by
  induction h generalizing tokens with
  | nil => exact forall₂_agrees_refl _
  | @cons first _ _ _ hfirst _ ih =>
    cases hfirst with
    | error he => exact .cons (.fail he) (ih tokens)
    | same =>
      cases first with
      | error e => exact .cons (.same _) (ih tokens)
      | ok field =>
        by_cases hw : t.Awaits field
        -- The cursor keeps the fields that are left, so the value comes before them on both sides.
        · cases tokens with
          | nil =>
            obtain ⟨now, hit, hits, hopt, _⟩ := t.optionSteps_of_awaits hw .group
            simp only [groupSteps, hopt]
            exact forall₂_agrees_refl _
          | cons value tokens =>
            rw [(t.groupSteps_of_awaits hw _).2, (t.groupSteps_of_awaits hw _).2]
            exact List.rel_append (forall₂_agrees_refl _) (ih tokens)
        · rw [t.groupSteps_of_not_awaits hw, t.groupSteps_of_not_awaits hw, List.append_assoc,
            List.append_assoc]
          exact List.rel_append (forall₂_agrees_refl _) (ih tokens)

/-- Two groups add the steps of one, if the first takes no token for a value. -/
theorem forall₂_agrees_steps_group {group : String}
    (hpaired : Group.endsUnpaired '\\' group.toList = false)
    (hfields : ∀ field, .ok field ∈ Group.fields group → ¬ t.Awaits field) (group' : String)
    (tokens : List String) :
    List.Forall₂ (Step.Agrees (Group.NamesPart group group'))
      (t.steps .options ("-o" :: (group ++ "," ++ group') :: tokens))
      (t.steps .options ("-o" :: group :: "-o" :: group' :: tokens)) := by
  -- Apart, the second group is read only if the cursor is back at options after the first.
  have hcursor : (t.groupSteps (Group.fields group)).2 = .options := by
    have hnil := congrArg Prod.snd (t.groupSteps_append hfields [])
    rwa [List.append_nil] at hnil
  have happend := t.groupSteps_append hfields (Group.fields group')
  have hagrees := t.forall₂_agrees_groupSteps (Group.forall₂_agrees_fields hpaired group') tokens
  rw [t.steps_group rfl, t.steps_group rfl, hcursor, t.steps_group rfl, ← List.append_assoc]
  rwa [happend] at hagrees

end Table

/-- A parse does not tell two groups from one that holds the fields of both, unless a field of
the first one takes the next token for its value or a backslash at its end takes the comma. -/
theorem parse_merged_groups {t : Table D} {data : D} {args merged apart out : ArgVec}
    {group group' : String} {rest : List String} (hne : args.toList ≠ [])
    (h : (parse t callback data args).result = .ok out)
    (hsep : t.HasNoSeparator args.toList.tail)
    (hpaired : Group.endsUnpaired '\\' group.toList = false)
    (hfields : ∀ field, .ok field ∈ Group.fields group →
      ∀ row ∈ t.rows, ¬ row.templ.IsSpacedName field)
    (hmerged : merged.toList = args.toList ++ "-o" :: (group ++ "," ++ group') :: rest)
    (hapart : apart.toList = args.toList ++ "-o" :: group :: "-o" :: group' :: rest) :
    Outcome.Agrees (Group.NamesPart group group') (parse t callback data merged)
      (parse t callback data apart) := by
  obtain ⟨_, s, _, hresumes⟩ := exists_resumes_of_parse_ok hne h hsep
  rw [hresumes merged _ hmerged, hresumes apart _ hapart]
  apply Progress.run_agrees
  apply t.forall₂_agrees_steps_group hpaired
  exact fun field hmem => Table.not_awaits_iff.mpr (hfields field hmem)

/-- The escape that the end of the first group has broken off stays broken off, and the field that
does not decode comes after a value that its own group awaits. -/
theorem parse_merged_groups_octal :
    let t : Table Nat := ⟨[.forKey "ro" ⟨0⟩, .forKey "-p %s" .keep], 1⟩
    let group := "ro,a\\05"
    let group' := "4,-p,\\377"
    let args := ArgVec.ofList ["prog", "in"]
    let merged := ArgVec.ofList ["prog", "in", "-o", "ro,a\\05,4,-p,\\377", "8", "x"]
    let apart := ArgVec.ofList ["prog", "in", "-o", "ro,a\\05", "-o", "4,-p,\\377", "8", "x"]
    args.toList ≠ [] ∧
      (parse t (some countingCallback) 0 args).result = .ok (.ofList ["prog", "seen"]) ∧
      t.HasNoSeparator args.toList.tail ∧ Group.endsUnpaired '\\' group.toList = false ∧
      (∀ field, .ok field ∈ Group.fields group →
        ∀ row ∈ t.rows, ¬ row.templ.IsSpacedName field) ∧
      merged.toList = args.toList ++ "-o" :: (group ++ "," ++ group') :: ["8", "x"] ∧
      apart.toList = args.toList ++ "-o" :: group :: "-o" :: group' :: ["8", "x"] ∧
      (parse t (some countingCallback) 0 merged).result =
        .error (.invalidGroup ⟨"ro,a\\05,4,-p,\\377"⟩) ∧
      (parse t (some countingCallback) 0 apart).result = .error (.invalidGroup ⟨group'⟩) ∧
      Outcome.Agrees (Group.NamesPart group group') (parse t (some countingCallback) 0 merged)
        (parse t (some countingCallback) 0 apart) := by
  intro t group group' args merged apart
  have hne : args.toList ≠ [] := List.cons_ne_nil _ _
  have h : (parse t (some countingCallback) 0 args).result = .ok (.ofList ["prog", "seen"]) := by
    cbv
  have hread : t.Reads args.toList.tail [.positional "in"] none := .positional rfl .nil
  have hsep : t.HasNoSeparator args.toList.tail := hread.hasNoSeparator_iff.mpr rfl
  have hpaired : Group.endsUnpaired '\\' group.toList = false := by decide
  have hdecoded : Group.fields group = [.ok "ro", .ok "a05"] := by cbv
  have hfields : ∀ field, .ok field ∈ Group.fields group →
      ∀ row ∈ t.rows, ¬ row.templ.IsSpacedName field := by
    intro field hmem
    rw [hdecoded] at hmem
    rw [← Table.not_awaits_iff]
    obtain rfl | rfl : field = "ro" ∨ field = "a05" := by simpa using hmem
    · decide
    · decide
  have hmerged : merged.toList = args.toList ++ "-o" :: (group ++ "," ++ group') :: ["8", "x"] := by
    decide
  exact ⟨hne, h, hsep, hpaired, hfields, hmerged, rfl, by cbv, by cbv,
    parse_merged_groups hne h hsep hpaired hfields hmerged rfl⟩

/-- The same rows match the name with and without the value, one at least, and all of them are
spaced and have that name. -/
structure Table.TakesAttached (t : Table D) (name value : String) : Prop where
  rows_eq : (t.lookup (name ++ value)).map Hit.row = (t.lookup name).map Hit.row
  matched : t.lookup name ≠ []
  isSpacedName : ∀ hit ∈ t.lookup name, hit.row.templ.IsSpacedName name

namespace Table

variable {t : Table D} {name value : String}

theorem eq_map_of_sep_eq {hits : List (Hit D)} {sep : Nat} (h : ∀ hit ∈ hits, hit.sep = sep) :
    hits = (hits.map Hit.row).map fun row => ⟨row, sep⟩ := by
  rw [List.map_map]
  calc
    hits = hits.map id := (List.map_id hits).symm
    _ = hits.map ((fun row => ⟨row, sep⟩) ∘ Hit.row) := by
      refine List.map_congr_left fun hit hmem => ?_
      rw [Function.comp_apply, ← h hit hmem]
      rfl

theorem TakesAttached.isSpacedName_of_mem (h : t.TakesAttached name value) :
    ∀ hit ∈ t.lookup (name ++ value), hit.row.templ.IsSpacedName name := by
  intro hit hmem
  have hrow : hit.row ∈ (t.lookup name).map Hit.row := by
    rw [← h.rows_eq]
    exact List.mem_map_of_mem hmem
  obtain ⟨hit', hmem', heq⟩ := List.mem_map.mp hrow
  rw [← heq]
  exact h.isSpacedName hit' hmem'

/-- Not only the rows are the same, but the separator as well, which is where the name ends. -/
theorem TakesAttached.lookup_eq (h : t.TakesAttached name value) :
    t.lookup (name ++ value) = t.lookup name := by
  have hsep : ∀ hit ∈ t.lookup name, hit.sep = name.utf8ByteSize := by
    intro hit hmem
    have hmatch := (t.mem_lookup.mp hmem).2
    rw [(h.isSpacedName hit hmem).match?] at hmatch
    exact (Option.some.inj hmatch).symm
  have hsep' : ∀ hit ∈ t.lookup (name ++ value), hit.sep = name.utf8ByteSize := by
    intro hit hmem
    have hmatch := (t.mem_lookup.mp hmem).2
    rw [(h.isSpacedName_of_mem hit hmem).match?_append value] at hmatch
    exact (Option.some.inj hmatch).symm
  rw [eq_map_of_sep_eq hsep', h.rows_eq, ← eq_map_of_sep_eq hsep]

theorem TakesAttached.awaits (h : t.TakesAttached name value) : t.Awaits name := by
  obtain ⟨hit, hmem⟩ := List.exists_mem_of_ne_nil _ h.matched
  exact t.awaits_iff.mpr ⟨hit.row, (t.mem_lookup.mp hmem).1, h.isSpacedName hit hmem⟩

theorem TakesAttached.awaitsValue_append (h : t.TakesAttached name value) (hne : value ≠ "") :
    ∀ hit ∈ t.lookup (name ++ value), hit.awaitsValue (name ++ value) = false := by
  intro hit hmem
  rw [Bool.eq_false_iff, Ne, Hit.awaitsValue_iff (t.mem_lookup.mp hmem).2]
  exact (h.isSpacedName_of_mem hit hmem).not_append hne

theorem TakesAttached.itemSteps_eq (h : t.TakesAttached name value) (hne : value ≠ "")
    (place : Place) : t.itemSteps (.option place name (some value)) =
      t.itemSteps (.option place (name ++ value) none) := by
  have hmatched : t.lookup (name ++ value) ≠ [] := by
    rw [h.lookup_eq]
    exact h.matched
  rw [t.itemSteps_of_matched h.matched, t.itemSteps_of_matched hmatched, ← h.lookup_eq]
  refine List.map_congr_left fun hit hmem => ?_
  have hname : hit.awaitsValue name = true := by
    rw [h.lookup_eq] at hmem
    exact (Hit.awaitsValue_iff (t.mem_lookup.mp hmem).2).mpr (h.isSpacedName hit hmem)
  rw [Hit.stepWith_of_not_awaitsValue (h.awaitsValue_append hne hit hmem)]
  simp [Hit.stepWith, hname]

theorem TakesAttached.steps_eq (h : t.TakesAttached name value) (hne : value ≠ "")
    (hname : Shape.of name = .flag) (hattached : Shape.of (name ++ value) = .flag)
    (tokens : List String) :
    t.steps .options (name :: value :: tokens) = t.steps .options ((name ++ value) :: tokens) := by
  have hw : ¬ t.Awaits (name ++ value) := by
    rintro ⟨hit, hmem, htrue⟩
    rw [h.awaitsValue_append hne hit hmem] at htrue
    cases htrue
  rw [(t.feed_flag_of_awaits hname h.awaits).2, steps_cons, t.feed_flag_of_not_awaits hattached hw,
    h.itemSteps_eq hne]

end Table

/-- A parse does not tell a value in a token of its own from one that is attached to the name, if
both tokens are flags and mean the same rows. -/
theorem parse_attached_value {t : Table D} {data : D} {args apart attached out : ArgVec}
    {name value : String} {rest : List String} (hne : args.toList ≠ [])
    (h : (parse t callback data args).result = .ok out)
    (hsep : t.HasNoSeparator args.toList.tail) (hvalue : value ≠ "")
    (hname : Shape.of name = .flag) (hflag : Shape.of (name ++ value) = .flag)
    (hrows : t.TakesAttached name value)
    (hapart : apart.toList = args.toList ++ name :: value :: rest)
    (hattached : attached.toList = args.toList ++ (name ++ value) :: rest) :
    parse t callback data apart = parse t callback data attached := by
  obtain ⟨_, s, _, hresumes⟩ := exists_resumes_of_parse_ok hne h hsep
  rw [hresumes apart _ hapart, hresumes attached _ hattached,
    hrows.steps_eq hvalue hname hflag]

theorem parse_attached_value_negative :
    let size : Field (Option Int64) := .of fun _ (x : Int64) => some x
    let t := (Table.empty.addKeep "-p %s").addField "-p %d" size
    let args := ArgVec.ofList ["prog", "in"]
    let apart := ArgVec.ofList ["prog", "in", "-p", "-8", "-o", "ro"]
    let attached := ArgVec.ofList ["prog", "in", "-p-8", "-o", "ro"]
    args.toList ≠ [] ∧ (parse t none none args).result = .ok (.ofList ["prog", "in"]) ∧
      t.HasNoSeparator args.toList.tail ∧ "-8" ≠ "" ∧ Shape.of "-p" = .flag ∧
      Shape.of ("-p" ++ "-8") = .flag ∧ t.TakesAttached "-p" "-8" ∧
      apart.toList = args.toList ++ "-p" :: "-8" :: ["-o", "ro"] ∧
      attached.toList = args.toList ++ ("-p" ++ "-8") :: ["-o", "ro"] ∧
      (parse t none none attached).data = some (-8) ∧
      parse t none none apart = parse t none none attached := by
  intro size t args apart attached
  have hne : args.toList ≠ [] := List.cons_ne_nil _ _
  have h : (parse t none none args).result = .ok (.ofList ["prog", "in"]) := by cbv
  have hread : t.Reads args.toList.tail [.positional "in"] none := .positional rfl .nil
  have hsep : t.HasNoSeparator args.toList.tail := hread.hasNoSeparator_iff.mpr rfl
  have hvalue : "-8" ≠ "" := by decide
  have hflag : Shape.of ("-p" ++ "-8") = .flag := by decide
  have heq : (t.lookup ("-p" ++ "-8")).map Hit.row = (t.lookup "-p").map Hit.row := by cbv
  have hspaced : ∀ hit ∈ t.lookup "-p", hit.awaitsValue "-p" = true := by decide
  have hrows : t.TakesAttached "-p" "-8" := by
    refine ⟨heq, List.cons_ne_nil _ _, fun hit hmem => ?_⟩
    exact (Hit.awaitsValue_iff (t.mem_lookup.mp hmem).2).mp (hspaced hit hmem)
  have hattached : attached.toList = args.toList ++ ("-p" ++ "-8") :: ["-o", "ro"] := by decide
  exact ⟨hne, h, hsep, hvalue, rfl, hflag, hrows, rfl, hattached, by cbv,
    parse_attached_value hne h hsep hvalue rfl hflag hrows rfl hattached⟩

end GroupedOptions
