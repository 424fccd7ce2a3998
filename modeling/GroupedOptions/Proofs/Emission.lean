import Mathlib
import GroupedOptions.Parse
import GroupedOptions.Proofs.Group.RoundTrip
import GroupedOptions.Proofs.Reading

/-!
# What a parse emits

A step adds tokens at the end of the output, fields to the group, or nothing.
The output of a whole parse is what its steps emit, in the order in which they
are taken: the fields come first, in one group after the program name, and the
separator stands before what comes after it if there is anything. All of this
needs a callback that does nothing to the output but append to it.
-/
namespace GroupedOptions

variable {D : Type}

/-- A callback that leaves every token of the output where it is. -/
def Callback.AppendsOnly (f : Callback D) : Prop :=
  ∀ data token key out, out <+: (f data token key out).out

/-- What a step adds to the output and to the fields of the group. -/
structure Emission where
  output : List String
  fields : List String
  deriving DecidableEq, Repr

namespace Emission

def nothing : Emission := ⟨[], []⟩

/-- A kept token alone. -/
def kept (place : Place) (token : String) : Emission :=
  match place with
  | .output => ⟨[token], []⟩
  | .group => ⟨[], [token]⟩

@[simp] theorem output_kept_output (token : String) : (kept .output token).output = [token] := rfl

@[simp] theorem fields_kept_output (token : String) : (kept .output token).fields = [] := rfl

@[simp] theorem output_kept_group (token : String) : (kept .group token).output = [] := rfl

@[simp] theorem fields_kept_group (token : String) : (kept .group token).fields = [token] := rfl

/-- The same with the tokens before it that the callback appended. -/
def after (appended : List String) (e : Emission) : Emission := ⟨appended ++ e.output, e.fields⟩

end Emission

/-- `Emits callback data out step e data'`: from this data and output, the step emits `e` and
leaves the data `data'`. -/
inductive Emits (callback : Option (Callback D)) (data : D) (out : List String) :
    Step D → Emission → D → Prop
  | store {field token v data'} : field.store data v = (data', none) →
      Emits callback data out (.store field token v) .nothing data'
  | separator : Emits callback data out .separator ⟨["--"], []⟩ data
  | discard {place token} : Emits callback data out (.offer .discard place token) .nothing data
  | keep {key place token} : key ≠ .discard → key = .keep ∨ callback = none →
      Emits callback data out (.offer key place token) (.kept place token) data
  | kept {f key place token data' appended} : callback = some f → key ≠ .discard → key ≠ .keep →
      f data token key out = ⟨data', out ++ appended, .ok .keep⟩ →
      Emits callback data out (.offer key place token) ((Emission.kept place token).after appended)
        data'
  | dropped {f key place token data' appended} : callback = some f → key ≠ .discard →
      key ≠ .keep → f data token key out = ⟨data', out ++ appended, .ok .discard⟩ →
      Emits callback data out (.offer key place token) (Emission.nothing.after appended) data'

/-- The emissions of steps that are taken one after the other. -/
inductive Trace (callback : Option (Callback D)) :
    D → List String → List (Step D) → List Emission → D → Prop
  | nil {data out} : Trace callback data out [] [] data
  | cons {data data' data'' out step steps e es} : Emits callback data out step e data' →
      Trace callback data' (out ++ e.output) steps es data'' →
      Trace callback data out (step :: steps) (e :: es) data''

/-- The tokens of the group that holds the given fields; no fields, no group. -/
def groupArgs (fields : List String) : List String :=
  if fields = [] then [] else ["-o", Group.joined fields]

/-- Operands with the separator before them; no operands, no separator. -/
def separated (operands : List String) : List String :=
  if operands = [] then [] else "--" :: operands

/-- The law of the output: every item emits in turn what its steps emit, then every operand
does; the fields are in one group after the program name, and the separator is before what
comes after it. -/
def Rebuilds (t : Table D) (callback : Option (Callback D)) (data : D) (program : String)
    (tokens : List String) (data' : D) (out : List String) : Prop :=
  ∃ items operands before after data₁, t.Reads tokens items operands ∧
    Trace callback data [program] (items.flatMap t.itemSteps) before data₁ ∧
    Trace callback data₁ (program :: before.flatMap Emission.output ++ ["--"])
      ((operands.getD []).map (.offer .positional .output)) after data' ∧
    out = program :: (groupArgs (before.flatMap Emission.fields) ++
      (before.flatMap Emission.output ++ separated (after.flatMap Emission.output)))

namespace Progress

variable {callback : Option (Callback D)} {s s' : Progress D}

@[simp] theorem data_keep (s : Progress D) (place : Place) (token : String) :
    (s.keep place token).data = s.data := by cases place <;> rfl

@[simp] theorem out_keep (s : Progress D) (place : Place) (token : String) :
    (s.keep place token).out = s.out ++ (Emission.kept place token).output := by
  cases place <;> simp [keep, Emission.kept]

@[simp] theorem kept_keep (s : Progress D) (place : Place) (token : String) :
    (s.keep place token).kept = s.kept ++ (Emission.kept place token).fields := by
  cases place <;> simp [keep, Emission.kept]

@[simp] theorem separator_keep (s : Progress D) (place : Place) (token : String) :
    (s.keep place token).separator = s.separator := by cases place <;> rfl

/-- The parse once a callback has had its turn, before the verdict. -/
def afterCall (s : Progress D) (f : Callback D) (key : Key) (token : String) : Progress D :=
  { s with
    data := (f s.data token key s.out).data
    out := (f s.data token key s.out).out
    calls := s.calls ++ [⟨token, key, s.out⟩] }

/-- An offer drops the token, keeps it, or does as the callback says. -/
theorem offer_cases {key : Key} {place : Place} {token : String}
    (h : s.offer callback key place token = .ok s') :
    (key = .discard ∧ s' = s) ∨
    (key ≠ .discard ∧ (key = .keep ∨ callback = none) ∧ s' = s.keep place token) ∨
    ∃ f, callback = some f ∧ key ≠ .discard ∧ key ≠ .keep ∧
      (((f s.data token key s.out).verdict = .ok .discard ∧ s' = s.afterCall f key token) ∨
        ((f s.data token key s.out).verdict = .ok .keep ∧
          s' = (s.afterCall f key token).keep place token)) := by
  unfold offer at h
  split at h
  next hdiscard =>
    cases h
    exact .inl ⟨hdiscard, rfl⟩
  next hdiscard =>
  split at h
  next hkeep =>
    cases h
    exact .inr (.inl ⟨hdiscard, .inl hkeep, rfl⟩)
  next hkeep =>
  split at h
  next =>
    cases h
    exact .inr (.inl ⟨hdiscard, .inr rfl, rfl⟩)
  next f =>
    -- The keys that pass by the callback are settled, and what is left is its verdict.
    refine .inr (.inr ⟨f, rfl, hdiscard, hkeep, ?_⟩)
    simp only at h
    split at h
    · cases h
    next hv =>
      cases h
      exact .inl ⟨hv, rfl⟩
    next hv =>
      cases h
      exact .inr ⟨hv, rfl⟩

theorem offer_emits (happ : ∀ f, callback = some f → f.AppendsOnly) {key : Key} {place : Place}
    {token : String} (h : s.offer callback key place token = .ok s') :
    ∃ e, Emits callback s.data s.out (.offer key place token) e s'.data ∧
      s'.out = s.out ++ e.output ∧ s'.kept = s.kept ++ e.fields ∧
      s'.separator = s.separator := by
  obtain ⟨rfl, rfl⟩ | ⟨hdiscard, hkeep, rfl⟩ | ⟨f, hf, hdiscard, hkeep, hverdict⟩ := offer_cases h
  · exact ⟨.nothing, .discard, by simp [Emission.nothing]⟩
  · exact ⟨.kept place token, by simpa using .keep hdiscard hkeep, by simp⟩
  obtain ⟨appended, happended⟩ := happ f hf s.data token key s.out
  have hreply : ∀ {d}, (f s.data token key s.out).verdict = d → f s.data token key s.out =
      ⟨(f s.data token key s.out).data, s.out ++ appended, d⟩ := by
    rintro d rfl
    rw [happended]
  obtain ⟨hv, rfl⟩ | ⟨hv, rfl⟩ := hverdict
  · refine ⟨Emission.nothing.after appended, .dropped hf hdiscard hkeep (hreply hv), ?_⟩
    simp [afterCall, ← happended, Emission.after, Emission.nothing]
  · have hemits : Emits callback s.data s.out (.offer key place token)
        ((Emission.kept place token).after appended) (f s.data token key s.out).data :=
      .kept hf hdiscard hkeep (hreply hv)
    refine ⟨(Emission.kept place token).after appended, by simpa [afterCall] using hemits, ?_⟩
    simp [afterCall, ← happended, Emission.after]

theorem take_store_ok {field : Field D} {token : String} {v : Value}
    (h : s.take callback (.store field token v) = .ok s') :
    ∃ data, field.store s.data v = (data, none) ∧ s' = { s with data := data } := by
  cases hstore : field.store s.data v with
  | mk data error =>
    cases error with
    | some e => simp [take, hstore, fail] at h
    | none =>
      simp only [take, hstore, Except.ok.injEq] at h
      exact ⟨data, rfl, h.symm⟩

theorem take_emits (happ : ∀ f, callback = some f → f.AppendsOnly) {step : Step D}
    (h : s.take callback step = .ok s') (hsep : step ≠ .separator) :
    ∃ e, Emits callback s.data s.out step e s'.data ∧ s'.out = s.out ++ e.output ∧
      s'.kept = s.kept ++ e.fields ∧ s'.separator = s.separator := by
  cases step with
  | offer key place token => exact offer_emits happ h
  | store field token v =>
    obtain ⟨data, hstore, rfl⟩ := take_store_ok h
    exact ⟨.nothing, .store hstore, by simp [Emission.nothing]⟩
  | separator => exact absurd rfl hsep
  | fail error => cases h

theorem run_cons_ok {step : Step D} {steps : List (Step D)}
    (h : s.run callback (step :: steps) = .ok s') :
    ∃ s₁, s.take callback step = .ok s₁ ∧ s₁.run callback steps = .ok s' := by
  unfold run at h
  split at h
  next s₁ hs => exact ⟨s₁, hs, h⟩
  next => cases h

theorem run_append_ok {xs ys : List (Step D)} (h : s.run callback (xs ++ ys) = .ok s') :
    ∃ s₁, s.run callback xs = .ok s₁ ∧ s₁.run callback ys = .ok s' := by
  rw [run_append] at h
  cases hx : s.run callback xs with
  | error failure => simp [hx, Except.bind] at h
  | ok s₁ => exact ⟨s₁, rfl, by simpa [hx, Except.bind] using h⟩

/-- A run that succeeds has met no failure. -/
theorem fail_not_mem_of_run_ok {steps : List (Step D)} (h : s.run callback steps = .ok s')
    (e : ParseError) : .fail e ∉ steps := by
  induction steps generalizing s with
  | nil => simp
  | cons step steps ih =>
    obtain ⟨s₁, htake, hrun⟩ := run_cons_ok h
    rintro (_ | hmem)
    · cases htake
    · exact ih hrun (by assumption)

theorem exists_trace_of_run (happ : ∀ f, callback = some f → f.AppendsOnly)
    {steps : List (Step D)} (h : s.run callback steps = .ok s') (hsep : .separator ∉ steps) :
    ∃ es, Trace callback s.data s.out steps es s'.data ∧
      s'.out = s.out ++ es.flatMap Emission.output ∧
      s'.kept = s.kept ++ es.flatMap Emission.fields ∧ s'.separator = s.separator := by
  induction steps generalizing s with
  | nil =>
    cases h
    exact ⟨[], .nil, by simp⟩
  | cons step steps ih =>
    obtain ⟨s₁, htake, hrun⟩ := run_cons_ok h
    obtain ⟨e, hemits, hout, hkept, hmark⟩ :=
      take_emits happ htake fun heq => hsep (by simp [heq])
    obtain ⟨es, htrace, hout', hkept', hmark'⟩ := ih hrun fun hmem => hsep (by simp [hmem])
    rw [hout] at htrace
    refine ⟨e :: es, .cons hemits htrace, ?_, ?_, hmark'.trans hmark⟩
    · simp [hout', hout]
    · simp [hkept', hkept]

theorem trim_none (out : List String) : trim out none = out := by simp [trim]

/-- The separator goes when nothing follows it. -/
theorem trim_separator (front operands : List String) :
    trim (front ++ "--" :: operands) (some (front.length + 1)) = front ++ separated operands := by
  cases operands with
  | nil => simp [trim, separated]
  | cons x xs => simp [trim, separated]

/-- The group comes right after the program name. -/
theorem assemble_eq {program : String} {body : List String} (h : s.out = program :: body) :
    s.assemble = .ok (.ofList (trim (program :: (groupArgs s.kept ++ body))
      (s.separator.map (· + (groupArgs s.kept).length)))) := by
  unfold assemble
  cases hk : s.kept with
  | nil => simp [Group.join, groupArgs, h]
  | cons field fields =>
    rw [Group.join_cons]
    simp [groupArgs, h, ArgVec.insert, ArgVec.ofList, ArgVec.size, ArgVec.toList]

theorem assemble_of_separator_none {program : String} {body : List String}
    (h : s.out = program :: body) (hnone : s.separator = none) :
    s.assemble = .ok (.ofList (program :: (groupArgs s.kept ++ body))) := by
  rw [assemble_eq h, hnone, Option.map_none, trim_none]

/-- The separator is found again behind the group. -/
theorem assemble_of_separator {program : String} {body operands : List String}
    (h : s.out = program :: (body ++ "--" :: operands))
    (hsome : s.separator = some (body.length + 2)) :
    s.assemble = .ok (.ofList (program :: (groupArgs s.kept ++ (body ++ separated operands)))) := by
  have htrim := trim_separator (program :: (groupArgs s.kept ++ body)) operands
  have hlen : body.length + 2 + (groupArgs s.kept).length =
      (program :: (groupArgs s.kept ++ body)).length + 1 := by
    simp only [List.length_cons, List.length_append]
    omega
  rw [assemble_eq h, hsome, Option.map_some, hlen]
  simpa using congrArg ArgVec.ofList htrim

end Progress

/-- Offers to the output alone leave the group as it is. -/
theorem Trace.fields_eq_nil {callback : Option (Callback D)} {data data' : D} {out : List String}
    {steps : List (Step D)} {es : List Emission} (h : Trace callback data out steps es data')
    (hout : ∀ step ∈ steps, ∃ key token, step = .offer key .output token) :
    es.flatMap Emission.fields = [] := by
  induction h with
  | nil => rfl
  | cons hemits _ ih =>
    obtain ⟨key, token, rfl⟩ := hout _ List.mem_cons_self
    rw [List.flatMap_cons, ih fun step hmem => hout step (by simp [hmem])]
    cases hemits <;> simp [Emission.nothing, Emission.kept, Emission.after]

theorem Hit.stepWith_ne_separator (h : Hit D) (place : Place) (token value : String) :
    h.stepWith place token value ≠ .separator := by
  unfold Hit.stepWith Hit.step
  split
  · simp
  · split <;> simp

theorem Table.separator_not_mem_itemSteps (t : Table D) (item : Item) :
    .separator ∉ t.itemSteps item := by
  cases item with
  | positional token => simp [itemSteps]
  | option place token value =>
    by_cases hl : t.lookup token = []
    · simp [t.itemSteps_of_unmatched hl]
    · rw [t.itemSteps_of_matched hl]
      intro hmem
      obtain ⟨hit, _, heq⟩ := List.mem_map.mp hmem
      exact hit.stepWith_ne_separator place token (value.getD "") heq

theorem Table.separator_not_mem_flatMap_itemSteps (t : Table D) (items : List Item) :
    .separator ∉ items.flatMap t.itemSteps := by
  intro hmem
  obtain ⟨item, _, hitem⟩ := List.mem_flatMap.mp hmem
  exact t.separator_not_mem_itemSteps item hitem

/-- The separator is known by its place in the output, which nothing before it moves. -/
theorem Progress.rebuilds {t : Table D} {callback : Option (Callback D)} {data : D}
    {program : String} {tokens : List String} {s : Progress D}
    (happ : ∀ f, callback = some f → f.AppendsOnly)
    (h : (Progress.start data program).run callback (t.steps .options tokens) = .ok s) :
    ∃ out, s.assemble = .ok (.ofList out) ∧ Rebuilds t callback data program tokens s.data out := by
  obtain ⟨items, operands, hread⟩ := t.exists_reads tokens (fail_not_mem_of_run_ok h)
  rw [hread.steps_eq] at h
  obtain ⟨s₁, hitems, hoperands⟩ := run_append_ok h
  obtain ⟨before, htrace, hout, hkept, hmark⟩ :=
    exists_trace_of_run happ hitems (t.separator_not_mem_flatMap_itemSteps items)
  simp only [start, List.nil_append] at htrace hout hkept hmark
  cases operands with
  | none =>
    cases hoperands
    refine ⟨_, ?_, items, none, before, [], s.data, hread, htrace, .nil, rfl⟩
    rw [assemble_of_separator_none (by simpa using hout) hmark, hkept]
    simp [separated]
  | some operands =>
    obtain ⟨s₂, hs₂, hoperands⟩ := run_cons_ok hoperands
    cases hs₂
    obtain ⟨after, htrace', hout', hkept', hmark'⟩ :=
      exists_trace_of_run happ hoperands (by simp)
    simp only [hout, List.cons_append, List.nil_append] at htrace' hout' hkept' hmark'
    have hfields := htrace'.fields_eq_nil (by simp)
    rw [hkept, hfields, List.append_nil] at hkept'
    refine ⟨_, ?_, items, some operands, before, after, s₁.data, hread, htrace, htrace', rfl⟩
    rw [assemble_of_separator (by simpa using hout') (by simpa using hmark'), hkept']

theorem run_of_parse_ok {t : Table D} {callback : Option (Callback D)} {data : D}
    {program : String} {tokens : List String} {args out : ArgVec}
    (hargs : args.toList = program :: tokens)
    (h : (parse t callback data args).result = .ok out) :
    ∃ s, (Progress.start data program).run callback (t.steps .options tokens) = .ok s ∧
      s.assemble = .ok out ∧ (parse t callback data args).data = s.data := by
  unfold parse at h ⊢
  rw [hargs] at h ⊢
  simp only at h ⊢
  split at h
  next => cases h
  next s hs =>
    cases ha : s.assemble with
    | error e => simp [ha, Except.mapError] at h
    | ok args =>
      simp only [ha, Except.mapError, Except.ok.injEq] at h
      exact ⟨s, hs, by rw [ha, h], rfl⟩

/-- A parse that succeeds rebuilds the vector by the law of the output. -/
theorem parse_rebuilds {t : Table D} {callback : Option (Callback D)} {data : D}
    {program : String} {tokens : List String} {args out : ArgVec}
    (hargs : args.toList = program :: tokens) (happ : ∀ f, callback = some f → f.AppendsOnly)
    (h : (parse t callback data args).result = .ok out) :
    Rebuilds t callback data program tokens (parse t callback data args).data out.toList := by
  obtain ⟨s, hrun, hassemble, hdata⟩ := run_of_parse_ok hargs h
  obtain ⟨list, hlist, hrebuilds⟩ := Progress.rebuilds happ hrun
  cases hassemble.symm.trans hlist
  rw [hdata]
  exact hrebuilds

/-- A callback that counts its turns, marks each in the output and drops positional arguments. -/
def countingCallback : Callback Nat := fun n _ key out =>
  ⟨n + 1, out ++ ["seen"], .ok (if key = .positional then .discard else .keep)⟩

theorem countingCallback_appendsOnly : countingCallback.AppendsOnly :=
  fun _ _ _ _ => List.prefix_append _ _

theorem parse_rebuilds_counting :
    let t : Table Nat := ⟨[.forKey "-p %s" ⟨0⟩, .forKey "debug" .keep], 1⟩
    let tokens := ["-p", "8", "-o", "debug,a\\,b", "x", "--", "y"]
    let args := ArgVec.ofList ("prog" :: tokens)
    (parse t (some countingCallback) 0 args).result = .ok (.ofList ["prog", "-o", "debug,a\\,b",
        "seen", "-p8", "seen", "seen", "--", "seen"]) ∧
      Rebuilds t (some countingCallback) 0 "prog" tokens
        (parse t (some countingCallback) 0 args).data
        ["prog", "-o", "debug,a\\,b", "seen", "-p8", "seen", "seen", "--", "seen"] := by
  intro t tokens args
  have h : (parse t (some countingCallback) 0 args).result = .ok (.ofList ["prog", "-o",
      "debug,a\\,b", "seen", "-p8", "seen", "seen", "--", "seen"]) := by cbv
  refine ⟨h, parse_rebuilds rfl ?_ h⟩
  rintro f ⟨⟩
  exact countingCallback_appendsOnly

end GroupedOptions
