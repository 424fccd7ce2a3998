import GroupedOptions.Proofs.Flushing

/-!
# Callbacks that insert into the output

A callback may put tokens anywhere after the program name. The separator moves on then, but its
mark is the size that the output had, so at the end the separator is found only where nothing at all
was put in after it came. The main statement is that it is trimmed exactly in that case, and that no
other token of the output is ever taken away, however it is spelled.
-/
namespace GroupedOptions

variable {D : Type}

/-- The tokens of `out` are in `out'` in their order, the first one in front. -/
structure Inserted (out out' : List String) : Prop where
  head : out'.head? = out.head?
  sublist : out.Sublist out'

/-- A callback that takes no token away and puts none before the first. -/
def Callback.InsertsOnly (f : Callback D) : Prop :=
  ∀ data token key out, out ≠ [] → Inserted out (f data token key out).out

/-- An output that is cut at the separator. -/
structure Sides where
  before : List String
  after : List String

namespace Sides

def output (s : Sides) : List String := s.before ++ "--" :: s.after

def add (s : Sides) (token : String) : Sides := { s with after := s.after ++ [token] }

/-- Tokens are put in on either side of the separator. -/
structure Grows (s s' : Sides) : Prop where
  before : Inserted s.before s'.before
  after : s.after.Sublist s'.after

end Sides

/-- `Carry callback data sides token data' sides'`: the turn of an operand, with the separator
followed on its way through the output. -/
inductive Carry (callback : Option (Callback D)) (data : D) (sides : Sides) (token : String) :
    D → Sides → Prop
  | plain : callback = none → Carry callback data sides token data (sides.add token)
  | kept {f data' moved} : callback = some f → sides.Grows moved →
      f data token .positional sides.output = ⟨data', moved.output, .ok .keep⟩ →
      Carry callback data sides token data' (moved.add token)
  | dropped {f data' moved} : callback = some f → sides.Grows moved →
      f data token .positional sides.output = ⟨data', moved.output, .ok .discard⟩ →
      Carry callback data sides token data' moved

/-- The same for operands one after the other. -/
inductive Carries (callback : Option (Callback D)) : D → Sides → List String → D → Sides → Prop
  | nil {data sides} : Carries callback data sides [] data sides
  | cons {data data' data'' sides sides' sides'' token tokens} :
      Carry callback data sides token data' sides' →
      Carries callback data' sides' tokens data'' sides'' →
      Carries callback data sides (token :: tokens) data'' sides''

/-- From this data and the program name alone, all tokens are taken without an error, and the
separator is among them. They keep `fields` for the group; the output is `start` when the separator
comes, and `final` is how it ends. -/
def LeavesSides (t : Table D) (callback : Option (Callback D)) (data : D) (program : String)
    (tokens fields start : List String) (final : Sides) : Prop :=
  ∃ items operands data₁ data', t.Reads tokens items (some operands) ∧
    Turns callback data [program] (items.flatMap t.itemSteps) fields data₁ start ∧
    Carries callback data₁ ⟨start, []⟩ operands data' final

namespace Inserted

variable {out out' out'' : List String}

theorem refl (out : List String) : Inserted out out := ⟨rfl, .refl out⟩

theorem trans (h : Inserted out out') (h' : Inserted out' out'') : Inserted out out'' :=
  ⟨h'.head.trans h.head, h.sublist.trans h'.sublist⟩

theorem ne_nil (h : Inserted out out') (hne : out ≠ []) : out' ≠ [] := by
  rintro rfl
  exact hne (List.sublist_nil.mp h.sublist)

theorem append (hne : out ≠ []) (tokens : List String) : Inserted out (out ++ tokens) := by
  obtain ⟨first, rest, rfl⟩ := List.exists_cons_of_ne_nil hne
  exact ⟨rfl, List.sublist_append_left _ _⟩

theorem exists_cons {first : String} {rest : List String} (h : Inserted (first :: rest) out') :
    ∃ rest', out' = first :: rest' ∧ rest.Sublist rest' := by
  obtain ⟨rest', rfl⟩ := List.head?_eq_some_iff.mp h.head
  exact ⟨rest', rfl, List.cons_sublist_cons.mp h.sublist⟩

/-- What is put in goes to one side of the separator or to the other. -/
theorem exists_sides {sides : Sides} (hne : sides.before ≠ []) (h : Inserted sides.output out') :
    ∃ moved : Sides, sides.Grows moved ∧ out' = moved.output := by
  obtain ⟨before, after⟩ := sides
  obtain ⟨first, rest, rfl⟩ := List.exists_cons_of_ne_nil hne
  obtain ⟨rest', rfl, hrest⟩ := exists_cons h
  obtain ⟨left, right, rfl, hleft, hright⟩ := List.append_sublist_iff.mp hrest
  obtain ⟨front, back, rfl, hmem, hback⟩ := List.cons_sublist_iff.mp hright
  obtain ⟨a, b, rfl⟩ := List.append_of_mem hmem
  refine ⟨⟨first :: (left ++ a), b ++ back⟩, ⟨⟨rfl, ?_⟩, ?_⟩, by simp [Sides.output]⟩
  · exact (hleft.trans (List.sublist_append_left left a)).cons_cons first
  · exact hback.trans (List.sublist_append_right b back)

end Inserted

namespace Sides

@[simp] theorem output_add (s : Sides) (token : String) :
    (s.add token).output = s.output ++ [token] := by simp [output, add]

theorem grows_add (s : Sides) (token : String) : s.Grows (s.add token) :=
  ⟨.refl _, List.sublist_append_left _ _⟩

theorem Grows.trans {s s' s'' : Sides} (h : s.Grows s') (h' : s'.Grows s'') : s.Grows s'' :=
  ⟨h.before.trans h'.before, h.after.trans h'.after⟩

end Sides

section Turns

variable {callback : Option (Callback D)} {data data' : D} {out out' fields tokens : List String}
  {sides sides' : Sides} {step : Step D} {token : String}

/-- What a turn adds of its own goes to the end, so it takes nothing away either. -/
theorem Turn.inserted (hinserts : ∀ f, callback = some f → f.InsertsOnly)
    (h : Turn callback data out step fields data' out') (hne : out ≠ []) : Inserted out out' := by
  cases h with
  | store _ | discard => exact .refl out
  | separator | keep _ _ => exact .append hne _
  | @kept f key _ token _ moved hf _ _ hreply =>
    have hmoved : Inserted out moved := by
      have := hinserts f hf data token key out hne
      rwa [hreply] at this
    exact hmoved.trans (.append (hmoved.ne_nil hne) _)
  | @dropped f key _ token _ moved hf _ _ hreply =>
    have := hinserts f hf data token key out hne
    rwa [hreply] at this

theorem Turns.inserted {steps : List (Step D)} (hinserts : ∀ f, callback = some f → f.InsertsOnly)
    (h : Turns callback data out steps fields data' out') (hne : out ≠ []) :
    Inserted out out' := by
  induction h with
  | nil => exact .refl _
  | cons hturn _ ih =>
    have hnow := hturn.inserted hinserts hne
    exact hnow.trans (ih (hnow.ne_nil hne))

theorem Carry.grows (h : Carry callback data sides token data' sides') : sides.Grows sides' := by
  cases h with
  | plain _ => exact sides.grows_add token
  | kept _ hgrows _ => exact hgrows.trans (Sides.grows_add _ token)
  | dropped _ hgrows _ => exact hgrows

theorem Carries.grows (h : Carries callback data sides tokens data' sides') :
    sides.Grows sides' := by
  induction h with
  | nil => exact ⟨.refl _, .refl _⟩
  | cons hcarry _ ih => exact hcarry.grows.trans ih

theorem Carry.turn (h : Carry callback data sides token data' sides') :
    Turn callback data sides.output (.offer .positional .output token) [] data' sides'.output := by
  cases h with
  | plain hnone =>
    rw [Sides.output_add]
    exact .keep (by decide) (.inr hnone)
  | kept hf _ hreply =>
    rw [Sides.output_add]
    exact .kept hf (by decide) (by decide) hreply
  | dropped hf _ hreply => exact .dropped hf (by decide) (by decide) hreply

theorem Carries.turns (h : Carries callback data sides tokens data' sides') :
    Turns callback data sides.output (tokens.map (.offer .positional .output)) [] data'
      sides'.output := by
  induction h with
  | nil => exact .nil
  | cons hcarry _ ih => exact .cons hcarry.turn ih

/-- The separator can be followed through every turn of an operand. -/
theorem exists_carry_of_turn (hinserts : ∀ f, callback = some f → f.InsertsOnly)
    (hne : sides.before ≠ [])
    (h : Turn callback data sides.output (.offer .positional .output token) fields data' out') :
    ∃ sides', Carry callback data sides token data' sides' ∧ out' = sides'.output := by
  have houtput : sides.output ≠ [] := by simp [Sides.output]
  have hmoved {f d out'} (hf : callback = some f)
      (hreply : f data token .positional sides.output = ⟨data', out', d⟩) :
      ∃ moved : Sides, sides.Grows moved ∧ out' = moved.output := by
    have hinserted := hinserts f hf data token .positional sides.output houtput
    rw [hreply] at hinserted
    exact hinserted.exists_sides hne
  generalize hstep : Step.offer .positional .output token = step at h
  cases h with
  | store _ | separator => cases hstep
  | discard => exact absurd (Step.offer.inj hstep).1 (by decide)
  | keep _ hplain =>
    obtain ⟨rfl, rfl, rfl⟩ := Step.offer.inj hstep
    obtain hkey | hnone := hplain
    · exact absurd hkey (by decide)
    · exact ⟨sides.add token, .plain hnone, by simp⟩
  | kept hf _ _ hreply =>
    obtain ⟨rfl, rfl, rfl⟩ := Step.offer.inj hstep
    obtain ⟨moved, hgrows, rfl⟩ := hmoved hf hreply
    exact ⟨moved.add token, .kept hf hgrows hreply, by simp⟩
  | dropped hf _ _ hreply =>
    obtain ⟨rfl, rfl, rfl⟩ := Step.offer.inj hstep
    obtain ⟨moved, hgrows, rfl⟩ := hmoved hf hreply
    exact ⟨moved, .dropped hf hgrows hreply, rfl⟩

theorem exists_carries_of_turns (hinserts : ∀ f, callback = some f → f.InsertsOnly)
    (hne : sides.before ≠ []) (h : Turns callback data sides.output
      (tokens.map (.offer .positional .output)) fields data' out') :
    ∃ sides', Carries callback data sides tokens data' sides' ∧ out' = sides'.output := by
  induction tokens generalizing data sides fields with
  | nil =>
    cases h
    exact ⟨sides, .nil, rfl⟩
  | cons token tokens ih =>
    obtain ⟨data₁, out₁, now, later, hturn, hturns, _⟩ := h.exists_cons
    obtain ⟨sides₁, hcarry, rfl⟩ := exists_carry_of_turn hinserts hne hturn
    obtain ⟨sides', hcarries, rfl⟩ := ih (hcarry.grows.before.ne_nil hne) hturns
    exact ⟨sides', .cons hcarry hcarries, rfl⟩

end Turns

variable {t : Table D} {callback : Option (Callback D)} {data : D} {program : String}
  {tokens fields start last : List String} {final : Sides}

theorem LeavesSides.leaves (h : LeavesSides t callback data program tokens fields start final) :
    Leaves t callback data program tokens fields (some start) final.output := by
  obtain ⟨items, operands, data₁, data', hread, hitems, hcarries⟩ := h
  exact ⟨items, some operands, data₁, start, data', hread, hitems, .cons .separator hcarries.turns,
    rfl⟩

theorem LeavesSides.inserted (hinserts : ∀ f, callback = some f → f.InsertsOnly)
    (h : LeavesSides t callback data program tokens fields start final) :
    Inserted [program] start ∧ Inserted start final.before := by
  obtain ⟨items, operands, data₁, data', hread, hitems, hcarries⟩ := h
  exact ⟨hitems.inserted hinserts (by simp), hcarries.grows.before⟩

/-- Of what the tokens leave, the separator can be told apart if there is one. -/
theorem Leaves.exists_sides (hinserts : ∀ f, callback = some f → f.InsertsOnly)
    (h : Leaves t callback data program tokens fields (some start) last) :
    ∃ final, LeavesSides t callback data program tokens fields start final ∧
      last = final.output := by
  obtain ⟨items, operands, data₁, out₁, data', hread, hitems, hoperands, hstart⟩ := h
  cases operands with
  | none => cases hstart
  | some operands =>
    obtain rfl : start = out₁ := Option.some.inj hstart
    obtain ⟨_, _, _, _, hseparator, hturns, _⟩ := hoperands.exists_cons
    cases hseparator
    have hne : start ≠ [] := (hitems.inserted hinserts (by simp)).ne_nil (by simp)
    let here : Sides := ⟨start, []⟩
    obtain ⟨final, hcarries, rfl⟩ :=
      exists_carries_of_turns hinserts (show here.before ≠ [] from hne) hturns
    exact ⟨final, ⟨items, operands, data₁, data', hread, hitems, hcarries⟩, rfl⟩

theorem Leaves.inserted (hinserts : ∀ f, callback = some f → f.InsertsOnly)
    (h : Leaves t callback data program tokens fields none last) : Inserted [program] last := by
  obtain ⟨items, operands, data₁, out₁, data', hread, hitems, hoperands, hnone⟩ := h
  cases operands with
  | some operands => cases hnone
  | none =>
    cases hoperands
    exact hitems.inserted hinserts (by simp)

/-- A separator that stands where its mark says or further back is trimmed only if it stands there
and is the last token. -/
theorem Progress.trim_of_le {front after : List String} {size : ℕ} (h : size ≤ front.length)
    (hnot : ¬ (after = [] ∧ front.length = size)) :
    trim (front ++ "--" :: after) (some (size + 1)) = front ++ "--" :: after := by
  unfold trim
  rw [if_neg]
  rintro ⟨hmark, _⟩
  simp only [Option.some.injEq, List.length_append, List.length_cons] at hmark
  exact hnot ⟨List.length_eq_zero_iff.mp (by omega), by omega⟩

/-- The group goes before the separator and moves it as far as its mark. -/
theorem Progress.assemble_of_sides {s : Progress D} {body : List String}
    (hbody : final.before = program :: body) (hgrown : Inserted start final.before)
    (hout : s.out = final.output) (hmark : s.separator = some (start.length + 1)) :
    (final.after = [] ∧ final.before = start →
      s.assemble = .ok (.ofList (program :: (groupArgs s.kept ++ body)))) ∧
    (¬ (final.after = [] ∧ final.before = start) →
      s.assemble = .ok (.ofList
        (program :: (groupArgs s.kept ++ (body ++ "--" :: final.after))))) := by
  have hwhole : s.out = program :: (body ++ "--" :: final.after) := by
    rw [hout, Sides.output, hbody]
    rfl
  have hassemble := assemble_eq hwhole
  rw [hmark, Option.map_some, Nat.add_right_comm] at hassemble
  have hfront : program :: (groupArgs s.kept ++ (body ++ "--" :: final.after)) =
      (program :: (groupArgs s.kept ++ body)) ++ "--" :: final.after := by simp
  have hlength : (program :: (groupArgs s.kept ++ body)).length =
      final.before.length + (groupArgs s.kept).length := by
    rw [hbody]
    simp only [List.length_cons, List.length_append]
    omega
  constructor
  · rintro ⟨hafter, rfl⟩
    rw [hassemble, hfront, hafter, ← hlength, trim_separator]
    simp [separated]
  · intro hnot
    rw [hassemble, hfront, trim_of_le]
    · rw [hlength]
      exact Nat.add_le_add_right hgrown.sublist.length_le _
    · rintro ⟨hafter, heq⟩
      rw [hlength, Nat.add_right_cancel_iff] at heq
      exact hnot ⟨hafter, (hgrown.sublist.eq_of_length heq.symm).symm⟩

/-- With a callback that takes nothing away and puts nothing before the program name, the result of
a parse is the whole output with the group after the program name, but for the separator. It is
missing exactly if it has nothing after it in the output at the end and nothing has been put in
before it since it came. -/
theorem separator_of_parse_ok {args out : ArgVec} (hargs : args.toList = program :: tokens)
    (hinserts : ∀ f, callback = some f → f.InsertsOnly)
    (h : (parse t callback data args).result = .ok out) :
    ((∃ fields last, Leaves t callback data program tokens fields none last) ∨
      ∃ fields start final, LeavesSides t callback data program tokens fields start final) ∧
    (∀ fields last, Leaves t callback data program tokens fields none last →
      ∃ body, last = program :: body ∧ out.toList = program :: (groupArgs fields ++ body)) ∧
    ∀ fields start final, LeavesSides t callback data program tokens fields start final →
      ∃ body, final.before = program :: body ∧
        (final.after = [] ∧ final.before = start →
          out.toList = program :: (groupArgs fields ++ body)) ∧
        (¬ (final.after = [] ∧ final.before = start) →
          out.toList = program :: (groupArgs fields ++ (body ++ "--" :: final.after))) := by
  obtain ⟨s, hrun, hassemble, _⟩ := run_of_parse_ok hargs h
  refine ⟨?_, ?_, ?_⟩
  · obtain ⟨before, hleaves⟩ := Progress.exists_leaves_of_run hrun
    cases before with
    | none => exact .inl ⟨_, _, hleaves⟩
    | some start =>
      obtain ⟨final, hsides, _⟩ := hleaves.exists_sides hinserts
      exact .inr ⟨_, start, final, hsides⟩
  · intro fields last hleaves
    obtain ⟨body, rfl, _⟩ := (hleaves.inserted hinserts).exists_cons
    -- A run has one end, so what the tokens leave is what was assembled.
    obtain ⟨s', hrun', rfl, hlast, hmark⟩ := hleaves.exists_run
    cases hrun.symm.trans hrun'
    cases hassemble.symm.trans (Progress.assemble_of_separator_none hlast hmark)
    exact ⟨body, rfl, rfl⟩
  · intro fields start final hsides
    obtain ⟨hprogram, hgrown⟩ := hsides.inserted hinserts
    obtain ⟨body, hbody, _⟩ := (hprogram.trans hgrown).exists_cons
    obtain ⟨s', hrun', rfl, hlast, hmark⟩ := hsides.leaves.exists_run
    cases hrun.symm.trans hrun'
    obtain ⟨htrimmed, hwhole⟩ := Progress.assemble_of_sides hbody hgrown hlast hmark
    refine ⟨body, hbody, fun hend => ?_, fun hend => ?_⟩
    · cases hassemble.symm.trans (htrimmed hend)
      rfl
    · cases hassemble.symm.trans (hwhole hend)
      rfl

/-- A callback that puts a mark after the program name at its turns under `key`, and drops
positional arguments. -/
def insertingCallback (key : Key) : Callback Nat := fun n _ k out =>
  ⟨n + 1, if k = key then out.insertIdx 1 "mark" else out,
    .ok (if k = .positional then .discard else .keep)⟩

theorem insertingCallback_insertsOnly (key : Key) : (insertingCallback key).InsertsOnly := by
  intro n token k out hne
  obtain ⟨first, rest, rfl⟩ := List.exists_cons_of_ne_nil hne
  by_cases hk : k = key
  · simp only [insertingCallback, if_pos hk]
    exact ⟨rfl, List.sublist_insertIdx _ _ _⟩
  · simp only [insertingCallback, if_neg hk]
    exact .refl _

theorem separator_of_parse_ok_marked :
    let callback := some (insertingCallback .unmatched)
    let tokens := ["-v", "-o", "ro", "--", "x"]
    let args := ArgVec.ofList ("prog" :: tokens)
    let start := ["prog", "mark", "mark", "-v"]
    args.toList = "prog" :: tokens ∧
      (parse Table.empty callback 0 args).result =
        .ok (.ofList ["prog", "-o", "ro", "mark", "mark", "-v"]) ∧
      LeavesSides Table.empty callback 0 "prog" tokens ["ro"] start ⟨start, []⟩ ∧
      (ArgVec.ofList ["prog", "-o", "ro", "mark", "mark", "-v"]).toList =
        "prog" :: (groupArgs ["ro"] ++ ["mark", "mark", "-v"]) := by
  intro callback tokens args start
  have h : (parse Table.empty callback 0 args).result =
      .ok (.ofList ["prog", "-o", "ro", "mark", "mark", "-v"]) := by cbv
  have hinserts : ∀ f, callback = some f → f.InsertsOnly := by
    intro f hf
    cases Option.some.inj hf
    exact insertingCallback_insertsOnly _
  have hfields : Table.empty.ReadsFields (D := Nat) (Group.fields "ro") ["--", "x"]
      [.option .group "ro" none] ["--", "x"] := by
    rw [show Group.fields "ro" = [.ok "ro"] from Group.fields_escape "ro"]
    exact .alone (by decide) .nil
  have hread : Table.empty.Reads (D := Nat) tokens
      [.option .output "-v" none, .option .group "ro" none] (some ["x"]) :=
    .flag rfl (by decide) (.group rfl hfields (.separator rfl))
  have hitems : Turns callback 0 ["prog"] ([.option .output "-v" none,
      .option .group "ro" none].flatMap Table.empty.itemSteps) ["ro"] 2 start :=
    .cons (.kept rfl (by decide) (by decide) rfl) <|
      .cons (.kept rfl (by decide) (by decide) rfl) .nil
  have hcarries : Carries callback 2 ⟨start, []⟩ ["x"] 3 ⟨start, []⟩ :=
    .cons (.dropped rfl ⟨.refl _, .refl _⟩ rfl) .nil
  have hsides : LeavesSides Table.empty callback 0 "prog" tokens ["ro"] start ⟨start, []⟩ :=
    ⟨_, _, _, _, hread, hitems, hcarries⟩
  obtain ⟨_, _, hall⟩ := separator_of_parse_ok (show args.toList = "prog" :: tokens from rfl)
    hinserts h
  obtain ⟨body, hbody, htrimmed, _⟩ := hall _ _ _ hsides
  cases hbody
  exact ⟨rfl, h, hsides, htrimmed ⟨rfl, rfl⟩⟩

/-- A mark that is put in after the separator came keeps it, although nothing is after it. -/
theorem separator_kept_of_inserting :
    let callback := some (insertingCallback .positional)
    let tokens := ["--", "x"]
    (insertingCallback .positional).InsertsOnly ∧
      LeavesSides Table.empty callback 0 "prog" tokens [] ["prog"] ⟨["prog", "mark"], []⟩ ∧
      (parse Table.empty callback 0 (.ofList ("prog" :: tokens))).result =
        .ok (.ofList ["prog", "mark", "--"]) ∧
      (ArgVec.ofList ["prog", "mark", "--"]).toList ≠ "prog" :: (groupArgs [] ++ ["mark"]) := by
  intro callback tokens
  have hread : Table.empty.Reads (D := Nat) tokens [] (some ["x"]) := .separator rfl
  have hgrows : (⟨["prog"], []⟩ : Sides).Grows ⟨["prog", "mark"], []⟩ :=
    ⟨⟨rfl, by decide⟩, .refl _⟩
  have hcarries : Carries callback 0 ⟨["prog"], []⟩ ["x"] 1 ⟨["prog", "mark"], []⟩ :=
    .cons (.dropped rfl hgrows rfl) .nil
  exact ⟨insertingCallback_insertsOnly _, ⟨_, _, _, _, hread, .nil, hcarries⟩, by cbv, by decide⟩

end GroupedOptions
