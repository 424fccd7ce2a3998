import GroupedOptions.Proofs.NormalForm

/-!
# Writing again what was passed on

Without a callback a parse changes the data by its stores alone, and a rebuilt vector passes on
the tokens of every field that is kept as well as stored. A second parse writes all of it again,
but in the order of the rebuilt vector: the fields of the group come before the flags, and a
token that several rows keep comes once for each of them. The data is the same where neither
matters.
-/
namespace GroupedOptions

variable {D : Type}

/-- What a step does to the data where there is no callback. -/
def Step.write : Step D → D → D
  | .store field _ v, data => (field.store data v).1
  | .offer _ _ _, data => data
  | .separator, data => data
  | .fail _, data => data

/-- What steps do to the data one after the other. -/
def writeSteps (steps : List (Step D)) (data : D) : D :=
  steps.foldl (fun data step => step.write data) data

@[simp] theorem writeSteps_nil (data : D) : writeSteps [] data = data := rfl

@[simp] theorem writeSteps_cons (step : Step D) (steps : List (Step D)) (data : D) :
    writeSteps (step :: steps) data = writeSteps steps (step.write data) := rfl

theorem writeSteps_append (xs ys : List (Step D)) (data : D) :
    writeSteps (xs ++ ys) data = writeSteps ys (writeSteps xs data) := List.foldl_append

theorem writeSteps_eq_self {steps : List (Step D)}
    (h : ∀ field token v, .store field token v ∉ steps) (data : D) :
    writeSteps steps data = data := by
  induction steps with
  | nil => rfl
  | cons step steps ih =>
    have hstep : step.write data = data := by
      cases step with
      | store field token v => exact absurd List.mem_cons_self (h field token v)
      | offer _ _ _ | separator | fail _ => rfl
    rw [writeSteps_cons, hstep]
    exact ih fun field token v hmem => h field token v (List.mem_cons_of_mem _ hmem)

theorem writeSteps_operandSteps (operands : Option (List String)) (data : D) :
    writeSteps (operandSteps operands) data = data := by
  apply writeSteps_eq_self
  intro field token v hmem
  cases operands with
  | none => cases hmem
  | some operands => simp [operandSteps] at hmem

/-- A field of some type: whether it takes a value does not depend on the data. -/
def Field.IsTyped (f : Field D) : Prop :=
  ∃ (α : Type) (_ : FromValue α) (put : D → α → D), f = .of put

theorem Field.IsTyped.succeeds {f : Field D} (h : f.IsTyped) {data data' : D} {v : Value}
    (hstore : f.store data v = (data', none)) (token : String) :
    (Step.store f token v).Succeeds := by
  obtain ⟨α, _, put, rfl⟩ := h
  intro data₁
  simp only [Field.of] at hstore ⊢
  cases hv : (fromValue v : Except ConvError α) with
  | ok x => rfl
  | error e => simp [hv] at hstore

namespace Progress

variable {s s' : Progress D}

theorem data_take {step : Step D} (h : s.take none step = .ok s') :
    s'.data = step.write s.data := by
  cases step with
  | offer key place token =>
    have hoffer : s.offer none key place token = .ok s' := h
    obtain ⟨_, rfl⟩ | ⟨_, _, rfl⟩ | ⟨f, hf, _⟩ := offer_cases hoffer
    · rfl
    · exact data_keep s place token
    · cases hf
  | store field token v =>
    obtain ⟨data, hstore, rfl⟩ := take_store_ok h
    simp [Step.write, hstore]
  | separator =>
    cases h
    rfl
  | fail error => cases h

theorem data_run {steps : List (Step D)} (h : s.run none steps = .ok s') :
    s'.data = writeSteps steps s.data := by
  induction steps generalizing s with
  | nil =>
    cases h
    rfl
  | cons step steps ih =>
    obtain ⟨s₁, htake, hrun⟩ := run_cons_ok h
    rw [ih hrun, data_take htake, writeSteps_cons]

/-- What has been taken once is taken again, if its fields are typed. -/
theorem succeeds_of_run_ok {steps : List (Step D)} (h : s.run none steps = .ok s')
    (htyped : ∀ field token v, .store field token v ∈ steps → field.IsTyped) :
    ∀ step ∈ steps, step.Succeeds := by
  induction steps generalizing s with
  | nil => simp
  | cons step steps ih =>
    obtain ⟨s₁, htake, hrun⟩ := run_cons_ok h
    have hrest := ih hrun fun field token v hmem =>
      htyped field token v (List.mem_cons_of_mem _ hmem)
    intro x hx
    obtain rfl | hx := List.mem_cons.mp hx
    · cases x with
      | store field token v =>
        obtain ⟨data, hstore, _⟩ := take_store_ok htake
        exact (htyped field token v List.mem_cons_self).succeeds hstore token
      | offer _ _ _ | separator => trivial
      | fail error => cases htake
    · exact hrest x hx

end Progress

namespace Table

variable (t : Table D)

def write (item : Item) (data : D) : D := writeSteps (t.itemSteps item) data

def writes (items : List Item) (data : D) : D :=
  items.foldl (fun data item => t.write item data) data

@[simp] theorem writes_nil (data : D) : t.writes [] data = data := rfl

@[simp] theorem writes_cons (item : Item) (items : List Item) (data : D) :
    t.writes (item :: items) data = t.writes items (t.write item data) := rfl

theorem writes_append (xs ys : List Item) (data : D) :
    t.writes (xs ++ ys) data = t.writes ys (t.writes xs data) := List.foldl_append

theorem writeSteps_flatMap (items : List Item) (data : D) :
    writeSteps (items.flatMap t.itemSteps) data = t.writes items data := by
  induction items generalizing data with
  | nil => rfl
  | cons item items ih =>
    rw [List.flatMap_cons, writeSteps_append, ih]
    rfl

/-- The items that keep their tokens in the group, then those that keep them in the output. -/
def regrouped (items : List Item) : List Item :=
  items.filter (·.place = .group) ++ items.filter (·.place = .output)

end Table

/-- The rebuilt vector and the data both come from the reading of the tokens. -/
theorem writes_of_parse_ok {t : Table D} {data : D} {program : String} {tokens : List String}
    {args out : ArgVec} (hargs : args.toList = program :: tokens)
    (h : (parse t none data args).result = .ok out) :
    ∃ items operands, t.Reads tokens items operands ∧
      out = .ofList (layout program (items.flatMap t.itemFields) (items.flatMap t.itemOutput)
        (operands.getD [])) ∧
      (parse t none data args).data = t.writes items data := by
  obtain ⟨items, operands, hread, hout⟩ := layout_of_parse_ok hargs h
  obtain ⟨s, hrun, _, hdata⟩ := run_of_parse_ok hargs h
  refine ⟨items, operands, hread, hout, ?_⟩
  rw [hdata, Progress.data_run hrun, hread.steps_eq, writeSteps_append,
    writeSteps_operandSteps, t.writeSteps_flatMap]
  rfl

theorem Hit.exists_dest_of_step {hit : Hit D} {place : Place} {text token : String}
    {field : Field D} {v : Value} (h : hit.step place text = .store field token v) :
    ∃ fixed, hit.row.dest = .field field fixed := by
  unfold step at h
  split at h
  · cases h
  next fixed hdest =>
    split at h
    · cases h
      exact ⟨fixed, hdest⟩
    · cases h

namespace Table

variable {t : Table D}

/-- A store is the turn of a row with that field. -/
theorem exists_hit_of_store_mem {place : Place} {token text : String} {value : Option String}
    {field : Field D} {v : Value}
    (h : .store field text v ∈ t.itemSteps (.option place token value)) :
    ∃ hit ∈ t.lookup token, ∃ fixed, hit.row.dest = .field field fixed := by
  by_cases hl : t.lookup token = []
  · simp [t.itemSteps_of_unmatched hl] at h
  · rw [t.itemSteps_of_matched hl] at h
    obtain ⟨hit, hmem, hstep⟩ := List.mem_map.mp h
    exact ⟨hit, hmem, Hit.exists_dest_of_step hstep⟩

def IsTyped (t : Table D) : Prop :=
  ∀ row ∈ t.rows, ∀ field fixed, row.dest = .field field fixed → field.IsTyped

theorem IsTyped.of_store_mem (htyped : t.IsTyped) {item : Item} {field : Field D} {text : String}
    {v : Value} (h : .store field text v ∈ t.itemSteps item) : field.IsTyped := by
  cases item with
  | positional token => simp [itemSteps] at h
  | option place token value =>
    obtain ⟨hit, hmem, fixed, hdest⟩ := exists_hit_of_store_mem h
    exact htyped hit.row (t.mem_lookup.mp hmem).1 field fixed hdest

end Table

/-- Whether a row keeps the tokens of a template without asking the callback. -/
def Row.keeps (row : Row D) (templ : Template) : Bool :=
  match row.dest with
  | .key key => row.templ = templ && key = .keep
  | .field _ _ => false

theorem Row.keeps_iff {row : Row D} {templ : Template} :
    row.keeps templ = true ↔ row.templ = templ ∧ row.dest = .key .keep := by
  unfold keeps
  split
  next key hdest => simp [hdest]
  next field fixed hdest => simp [hdest]

namespace Table

/-- Fields are typed, and beside each field row one row keeps the tokens of its template. -/
structure PassesFieldsOn (t : Table D) : Prop where
  isTyped : ∀ row ∈ t.rows, ∀ field fixed, row.dest = .field field fixed → field.IsTyped
  keptOnce : ∀ row ∈ t.rows, ∀ field fixed, row.dest = .field field fixed →
    t.rows.countP (·.keeps row.templ) = 1

end Table

/-- Steps that emit one thing or nothing emit it as often as they emit anything. -/
theorem flatMap_emission_eq {β : Type} {steps : List (Step D)} {e : Emission}
    (h : ∀ step ∈ steps, step.emission = .nothing ∨ step.emission = e) {g : Emission → List β}
    (hg : g .nothing = []) :
    steps.flatMap (fun step => g step.emission) =
      (List.replicate (steps.countP (·.emission ≠ .nothing)) (g e)).flatten := by
  induction steps with
  | nil => rfl
  | cons step steps ih =>
    have hrest := ih fun x hx => h x (List.mem_cons_of_mem _ hx)
    rw [List.flatMap_cons, hrest, List.countP_cons]
    by_cases hnothing : step.emission = .nothing
    · simp [hnothing, hg]
    · obtain hstep | hstep := h step List.mem_cons_self
      · exact absurd hstep hnothing
      · rw [if_pos (by simpa using hnothing), List.replicate_succ, List.flatten_cons, hstep]

/-- A row that awaits no value keeps a token as it is, or drops it. -/
theorem Hit.emission_step (hit : Hit D) (place : Place) (token : String) :
    (hit.step place token).emission = .nothing ∨
      (hit.step place token).emission = .kept place token := by
  unfold step
  split
  next key hdest =>
    by_cases hkey : key = .discard
    · simp [Step.emission, hkey]
    · exact .inr (Step.emission_offer hkey place token)
  next =>
    left
    split <;> rfl

namespace Table

variable {t : Table D}

def copies (t : Table D) (item : Item) : ℕ :=
  (t.itemSteps item).countP fun step => step.emission ≠ .nothing

theorem emission_of_mem_itemSteps (hnone : ∀ token, ¬ t.Awaits token) {item : Item}
    (hread : t.IsRead item) {step : Step D} (h : step ∈ t.itemSteps item) :
    step.emission = .nothing ∨ step.emission = .kept item.place item.text := by
  cases item with
  | positional token =>
    cases List.mem_singleton.mp h
    exact .inr (Step.emission_offer (by decide) _ _)
  | option place token value =>
    have htext : (Item.option place token value).text = token := by
      simp [IsRead.value_eq_none hread (hnone token)]
    rw [htext]
    by_cases hl : t.lookup token = []
    · rw [t.itemSteps_of_unmatched hl] at h
      cases List.mem_singleton.mp h
      exact .inr (Step.emission_offer (by decide) _ _)
    · rw [t.itemSteps_of_matched hl] at h
      obtain ⟨hit, hmem, rfl⟩ := List.mem_map.mp h
      have hw : hit.awaitsValue token = false :=
        Bool.eq_false_iff.mpr fun htrue => hnone token ⟨hit, hmem, htrue⟩
      rw [Hit.stepWith_of_not_awaitsValue hw]
      exact hit.emission_step place token

/-- An item of the group comes back once for each row that keeps it. -/
theorem map_itemFields (hnone : ∀ token, ¬ t.Awaits token) {item : Item} (hread : t.IsRead item) :
    (t.itemFields item).map (fun f => Item.option .group f none) =
      if item.place = .group then List.replicate (t.copies item) item else [] := by
  have hsteps : ∀ step ∈ t.itemSteps item, step.emission = .nothing ∨
      step.emission = .kept item.place item.text :=
    fun _ => emission_of_mem_itemSteps hnone hread
  rw [itemFields, flatMap_emission_eq hsteps rfl, ← copies]
  cases item with
  | positional token => simp
  | option place token value =>
    cases IsRead.value_eq_none hread (hnone token)
    cases place <;> simp

/-- So does an item of the output, and its shape is still the same. -/
theorem map_itemOutput (hnone : ∀ token, ¬ t.Awaits token) {item : Item} (hread : t.IsRead item) :
    (t.itemOutput item).map Item.ofToken =
      if item.place = .output then List.replicate (t.copies item) item else [] := by
  have hsteps : ∀ step ∈ t.itemSteps item, step.emission = .nothing ∨
      step.emission = .kept item.place item.text :=
    fun _ => emission_of_mem_itemSteps hnone hread
  rw [itemOutput, flatMap_emission_eq hsteps rfl, ← copies]
  cases item with
  | positional token =>
    have hshape : Shape.of token = .positional := hread
    simp [Item.ofToken, hshape]
  | option place token value =>
    cases IsRead.value_eq_none hread (hnone token)
    cases place with
    | output => simp [Item.ofToken, hread.1 rfl]
    | group => simp

theorem mem_of_mem_regrouped {items : List Item} {item : Item} (h : item ∈ regrouped items) :
    item ∈ items := by
  obtain h | h := List.mem_append.mp h
  · exact (List.mem_filter.mp h).1
  · exact (List.mem_filter.mp h).1

/-- The items of a rebuilt vector are those that were kept, the fields of the group first. -/
theorem layoutItems_of_isRead (hnone : ∀ token, ¬ t.Awaits token) {items : List Item}
    (hread : ∀ item ∈ items, t.IsRead item) :
    layoutItems (items.flatMap t.itemFields) (items.flatMap t.itemOutput) =
      (regrouped items).flatMap fun item => List.replicate (t.copies item) item := by
  have hfilter : ∀ place : Place, (items.filter (·.place = place)).flatMap
        (fun item => List.replicate (t.copies item) item) =
      items.flatMap fun item =>
        if item.place = place then List.replicate (t.copies item) item else [] := by
    intro place
    induction items with
    | nil => rfl
    | cons item items ih =>
      have hrest := ih fun x hx => hread x (List.mem_cons_of_mem _ hx)
      by_cases hplace : item.place = place <;> simp [hplace, hrest]
  rw [layoutItems, regrouped, List.flatMap_append, List.map_flatMap, List.map_flatMap,
    List.flatMap_congr fun item hmem => map_itemFields hnone (hread item hmem),
    List.flatMap_congr fun item hmem => map_itemOutput hnone (hread item hmem), hfilter, hfilter]

/-- What is stored is kept as well, so it comes back. -/
theorem copies_pos_of_store_mem (hfields : t.PassesFieldsOn) {item : Item} {field : Field D}
    {text : String} {v : Value} (h : .store field text v ∈ t.itemSteps item) :
    0 < t.copies item := by
  cases item with
  | positional token => simp [itemSteps] at h
  | option place token value =>
    obtain ⟨hit, hmem, fixed, hdest⟩ := exists_hit_of_store_mem h
    obtain ⟨hrow, hmatch⟩ := t.mem_lookup.mp hmem
    have hcount := hfields.keptOnce hit.row hrow field fixed hdest
    obtain ⟨keep, hkeep, hkeeps⟩ := List.countP_pos_iff.mp (hcount ▸ Nat.one_pos)
    obtain ⟨htempl, hdestKeep⟩ := Row.keeps_iff.mp hkeeps
    let keepHit : Hit D := ⟨keep, hit.sep⟩
    have hkeepHit : keepHit ∈ t.lookup token := t.mem_lookup.mpr ⟨hkeep, htempl ▸ hmatch⟩
    have hstep : keepHit.stepWith place token (value.getD "") ∈
        t.itemSteps (.option place token value) := by
      rw [t.itemSteps_of_matched (List.ne_nil_of_mem hmem)]
      exact List.mem_map_of_mem hkeepHit
    refine List.countP_pos_iff.mpr ⟨_, hstep, ?_⟩
    rw [Hit.stepWith_of_keep hdestKeep, Step.emission_offer (by decide)]
    cases place <;> simp [Emission.kept, Emission.nothing]

theorem isTyped_of_store_mem (hfields : t.PassesFieldsOn) {item : Item} {field : Field D}
    {text : String} {v : Value} (h : .store field text v ∈ t.itemSteps item) : field.IsTyped :=
  IsTyped.of_store_mem hfields.isTyped h

theorem write_eq_self_of_copies_eq_zero (hfields : t.PassesFieldsOn) {item : Item}
    (h : t.copies item = 0) (data : D) : t.write item data = data := by
  apply writeSteps_eq_self
  intro field token v hmem
  exact absurd h (copies_pos_of_store_mem hfields hmem).ne'

/-- Writes that are made again change nothing if a second time is like the first. -/
theorem writes_replicate {item : Item} {n : ℕ} (hn : n ≠ 0)
    (h : 1 < n → ∀ data, t.write item (t.write item data) = t.write item data) (data : D) :
    t.writes (List.replicate n item) data = t.write item data := by
  obtain ⟨n, rfl⟩ := Nat.exists_eq_succ_of_ne_zero hn
  clear hn
  induction n generalizing data with
  | zero => rfl
  | succ n ih =>
    rw [List.replicate_succ, writes_cons, ih _ fun _ => h (by omega)]
    exact h (by omega) data

theorem writes_copies (hfields : t.PassesFieldsOn) {items : List Item}
    (h : ∀ item ∈ items, 1 < t.copies item →
      ∀ data, t.write item (t.write item data) = t.write item data) (data : D) :
    t.writes (items.flatMap fun item => List.replicate (t.copies item) item) data =
      t.writes items data := by
  induction items generalizing data with
  | nil => rfl
  | cons item items ih =>
    have hitem : t.writes (List.replicate (t.copies item) item) data = t.write item data := by
      by_cases hzero : t.copies item = 0
      · rw [hzero, write_eq_self_of_copies_eq_zero hfields hzero]
        rfl
      · exact writes_replicate hzero (h item List.mem_cons_self) data
    rw [List.flatMap_cons, writes_append, hitem]
    exact ih (fun x hx => h x (List.mem_cons_of_mem _ hx)) _

theorem commute_writes {item : Item} {items : List Item}
    (h : ∀ x ∈ items, Function.Commute (t.write item) (t.write x)) :
    Function.Commute (t.write item) (t.writes items) := by
  induction items with
  | nil => exact fun data => rfl
  | cons x xs ih =>
    intro data
    have hx := h x List.mem_cons_self data
    have hxs := ih (fun y hy => h y (List.mem_cons_of_mem _ hy)) (t.write x data)
    rw [writes_cons, writes_cons, hxs, hx]

/-- Items that commute with the group items after them may be written after these. -/
theorem writes_regrouped {items : List Item}
    (h : items.Pairwise fun a b => a.place = .output → b.place = .group →
      Function.Commute (t.write a) (t.write b)) (data : D) :
    t.writes (regrouped items) data = t.writes items data := by
  induction items generalizing data with
  | nil => rfl
  | cons item items ih =>
    obtain ⟨hitem, hitems⟩ := List.pairwise_cons.mp h
    have hrest := ih hitems (t.write item data)
    cases hplace : item.place with
    | group => simpa [regrouped, hplace] using hrest
    | output =>
      have hcommute : Function.Commute (t.write item)
          (t.writes (items.filter (·.place = .group))) := by
        apply commute_writes
        intro x hx
        obtain ⟨hmem, hgroup⟩ := List.mem_filter.mp hx
        exact hitem x hmem hplace (by simpa using hgroup)
      rw [regrouped, writes_append] at hrest
      simp only [regrouped, hplace, List.filter_cons, writes_append]
      simpa [hcommute data] using hrest

/-- A token that several rows keep writes nothing else when it is written again. -/
def RepeatsPlainly (t : Table D) (tokens : List String) : Prop :=
  ∀ items operands, t.Reads tokens items operands → ∀ item ∈ items, 1 < t.copies item →
    ∀ data, t.write item (t.write item data) = t.write item data

/-- What a flag writes and what a field of a group after it writes come to the same in either
order. -/
def WritesApart (t : Table D) (tokens : List String) : Prop :=
  ∀ items operands, t.Reads tokens items operands → items.Pairwise fun a b =>
    a.place = .output → b.place = .group → Function.Commute (t.write a) (t.write b)

end Table

theorem Table.Reads.succeeds_of_parse_ok {t : Table D} {data : D} {program : String}
    {tokens : List String} {args out : ArgVec} {items : List Item}
    {operands : Option (List String)} (hread : t.Reads tokens items operands)
    (hfields : t.PassesFieldsOn) (hargs : args.toList = program :: tokens)
    (h : (parse t none data args).result = .ok out) :
    ∀ item ∈ items, ∀ step ∈ t.itemSteps item, step.Succeeds := by
  obtain ⟨s, hrun, _, _⟩ := run_of_parse_ok hargs h
  rw [hread.steps_eq] at hrun
  obtain ⟨s₁, hitems, _⟩ := Progress.run_append_ok hrun
  intro item hitem step hstep
  refine Progress.succeeds_of_run_ok hitems ?_ step (List.mem_flatMap.mpr ⟨item, hitem, hstep⟩)
  intro field token v hmem
  obtain ⟨x, _, hx⟩ := List.mem_flatMap.mp hmem
  exact Table.isTyped_of_store_mem hfields hx

/-- Read again, a rebuilt vector has the items that were kept, and all of them succeed. -/
theorem parse_layout_of_isRead {t : Table D} (hnone : ∀ token, ¬ t.Awaits token)
    {items : List Item} (hread : ∀ item ∈ items, t.IsRead item)
    (hsucceeds : ∀ item ∈ items, ∀ step ∈ t.itemSteps item, step.Succeeds)
    (hshapes : ∀ token ∈ items.flatMap t.itemOutput, t.IsSettled token)
    (program : String) (operands : List String) (data : D) :
    let again := parse t none data (.ofList (layout program (items.flatMap t.itemFields)
      (items.flatMap t.itemOutput) operands))
    (∃ out, again.result = .ok out) ∧ again.data =
      t.writes ((Table.regrouped items).flatMap fun item =>
        List.replicate (t.copies item) item) data := by
  intro again
  obtain ⟨after, hagain, _⟩ := Table.reads_layout (fun f _ => hnone f) hshapes operands
  have hlayout := Table.layoutItems_of_isRead hnone hread
  have hmem : ∀ item ∈ layoutItems (items.flatMap t.itemFields) (items.flatMap t.itemOutput),
      item ∈ items := by
    intro item hitem
    rw [hlayout] at hitem
    obtain ⟨x, hx, hitem⟩ := List.mem_flatMap.mp hitem
    rw [List.eq_of_mem_replicate hitem]
    exact Table.mem_of_mem_regrouped hx
  have hresult := parse_eq_layout hagain (fun item hitem => hsucceeds item (hmem item hitem))
    program data
  obtain ⟨items', operands', hread', _, hdata⟩ := writes_of_parse_ok rfl hresult
  obtain ⟨rfl, rfl⟩ := hagain.unique hread'
  exact ⟨⟨_, hresult⟩, hdata.trans (by rw [hlayout])⟩

/-- A parse without a callback, over a table that takes no token for a value and keeps the tokens
of its fields, is followed by one that succeeds. If no token that is kept more than once undoes
its own writes, the second parse writes what the first did, the fields of the group first, and
leaves the same data where the flags write apart from the groups after them. -/
theorem data_parse_again {t : Table D} {data : D} {args out : ArgVec}
    (hspaced : ∀ row ∈ t.rows, ∀ token, ¬ row.templ.IsSpacedName token)
    (hfields : t.PassesFieldsOn) (h : (parse t none data args).result = .ok out) :
    (∃ out', (parse t none data out).result = .ok out') ∧
      (t.RepeatsPlainly args.toList.tail →
        (∃ items operands, t.Reads args.toList.tail items operands ∧
          (parse t none data args).data = t.writes items data ∧
          (parse t none data out).data = t.writes (Table.regrouped items) data) ∧
        (t.WritesApart args.toList.tail →
          (parse t none data out).data = (parse t none data args).data)) := by
  have hnone : ∀ token, ¬ t.Awaits token :=
    fun token => Table.not_awaits_iff.mpr fun row hrow => hspaced row hrow token
  cases hargs : args.toList with
  | nil =>
    rw [parse_of_toList_eq_nil hargs] at h ⊢
    cases h
    exact ⟨⟨_, rfl⟩, fun _ => ⟨⟨[], none, .nil, rfl, rfl⟩, fun _ => rfl⟩⟩
  | cons program tokens =>
    obtain ⟨items, operands, hread, rfl, hdata⟩ := writes_of_parse_ok hargs h
    have hsucceeds := hread.succeeds_of_parse_ok hfields hargs h
    have hsettled : ∀ token ∈ items.flatMap t.itemOutput, t.IsSettled token := by
      intro token hmem
      have hshape := hread.shape_of_mem_output (hnone "-") token hmem
      exact hshape.imp_right fun hflag => ⟨hflag, hnone token⟩
    obtain ⟨hresult, hagain⟩ := parse_layout_of_isRead hnone hread.isRead hsucceeds hsettled
      program (operands.getD []) data
    refine ⟨hresult, fun hrepeat => ?_⟩
    have hregrouped : ∀ item ∈ Table.regrouped items, 1 < t.copies item →
        ∀ data, t.write item (t.write item data) = t.write item data :=
      fun item hmem => hrepeat items operands hread item (Table.mem_of_mem_regrouped hmem)
    rw [Table.writes_copies hfields hregrouped] at hagain
    refine ⟨⟨items, operands, hread, hdata, hagain⟩, fun hapart => ?_⟩
    rw [hagain, hdata, Table.writes_regrouped (hapart items operands hread)]

theorem Template.not_isSpacedName {templ : Template}
    (h : templ.parts?.all fun p => !p.spaced) (token : String) : ¬ templ.IsSpacedName token := by
  rintro ⟨p, hp, hspaced, _⟩
  simp [hp, hspaced] at h

/-- A field is passed on by a row that keeps its tokens, if no other row does. -/
theorem Table.PassesFieldsOn.addValue_addKeep {t : Table D} (h : t.PassesFieldsOn) {field : Field D}
    (hfield : field.IsTyped) {templ : String} (hnew : t.rows.countP (·.keeps ⟨templ⟩) = 0)
    (fixed : Int64) : ((t.addValue templ field fixed).addKeep templ).PassesFieldsOn := by
  have hrows : ((t.addValue templ field fixed).addKeep templ).rows =
      t.rows ++ [.forValue templ field fixed, .forKey templ .keep] := by
    simp [addValue, addKeep, append]
  have hcount : ∀ other : Template,
      ((t.addValue templ field fixed).addKeep templ).rows.countP (·.keeps other) =
        t.rows.countP (·.keeps other) + if other = ⟨templ⟩ then 1 else 0 := by
    intro other
    rw [hrows, List.countP_append]
    by_cases hother : other = ⟨templ⟩
    · simp [Row.keeps, Row.forValue, Row.forKey, hother]
    · simp [Row.keeps, Row.forValue, Row.forKey, hother, Ne.symm hother]
  constructor
  · intro row hrow f v hdest
    rw [hrows] at hrow
    obtain hrow | hrow := List.mem_append.mp hrow
    · exact h.isTyped row hrow f v hdest
    · obtain rfl | rfl : row = .forValue templ field fixed ∨ row = .forKey templ .keep := by
        simpa using hrow
      · cases hdest
        exact hfield
      · cases hdest
  · intro row hrow f v hdest
    rw [hrows] at hrow
    rw [hcount]
    obtain hrow | hrow := List.mem_append.mp hrow
    · have hold := h.keptOnce row hrow f v hdest
      have hne : row.templ ≠ ⟨templ⟩ := by
        intro heq
        rw [heq, hnew] at hold
        cases hold
      rw [if_neg hne, hold]
    · obtain rfl | rfl : row = .forValue templ field fixed ∨ row = .forKey templ .keep := by
        simpa using hrow
      · have htempl : (Row.forValue templ field fixed).templ = ⟨templ⟩ := rfl
        rw [htempl, hnew, if_pos rfl]
      · cases hdest

theorem Table.passesFieldsOn_empty : (Table.empty : Table D).PassesFieldsOn := by
  constructor <;> simp [empty]

theorem data_parse_again_debug :
    let debug : Field (Bool × Bool) := .of fun d (x : Bool) => (x, d.2)
    let quiet : Field (Bool × Bool) := .of fun d (x : Bool) => (d.1, x)
    let t := (((Table.empty.addValue "-d" debug 1).addKeep "-d").addValue "quiet" quiet 1).addKeep
      "quiet"
    let args := ArgVec.ofList ["prog", "-d", "-o", "quiet,ro", "-v"]
    let out := ArgVec.ofList ["prog", "-o", "quiet,ro", "-d", "-v"]
    (∀ row ∈ t.rows, ∀ token, ¬ row.templ.IsSpacedName token) ∧ t.PassesFieldsOn ∧
      (parse t none (false, false) args).result = .ok out ∧
      t.RepeatsPlainly args.toList.tail ∧ t.WritesApart args.toList.tail ∧
      (∃ out', (parse t none (false, false) out).result = .ok out') ∧
      (parse t none (false, false) out).data = (parse t none (false, false) args).data := by
  intro debug quiet t args out
  have hplain : ∀ row ∈ t.rows, row.templ.parts?.all fun p => !p.spaced := by decide
  have hspaced : ∀ row ∈ t.rows, ∀ token, ¬ row.templ.IsSpacedName token :=
    fun row hrow => Template.not_isSpacedName (hplain row hrow)
  have hfields : t.PassesFieldsOn :=
    (Table.passesFieldsOn_empty.addValue_addKeep ⟨_, _, _, rfl⟩ (by decide) 1).addValue_addKeep
      ⟨_, _, _, rfl⟩ (by decide) 1
  have h : (parse t none (false, false) args).result = .ok out := by cbv
  have hgroup : Group.fields "quiet,ro" = [.ok "quiet", .ok "ro"] := by cbv
  let items : List Item := [.option .output "-d" none, .option .group "quiet" none,
    .option .group "ro" none, .option .output "-v" none]
  have hfields' : t.ReadsFields (Group.fields "quiet,ro") ["-v"]
      [.option .group "quiet" none, .option .group "ro" none] ["-v"] := by
    rw [hgroup]
    exact .alone (by decide) (.alone (by decide) .nil)
  have hread : t.Reads args.toList.tail items none :=
    .flag rfl (by decide) (.group rfl hfields' (.flag rfl (by decide) .nil))
  have hrepeat : t.RepeatsPlainly args.toList.tail := by
    intro items' operands hread' item hmem hcopies
    obtain ⟨rfl, rfl⟩ := hread.unique hread'
    have hone : ∀ item ∈ items, t.copies item ≤ 1 := by decide
    exact absurd hcopies (hone item hmem).not_gt
  have hapart : t.WritesApart args.toList.tail := by
    intro items' operands hread'
    obtain ⟨rfl, rfl⟩ := hread.unique hread'
    have hdebug : t.write (.option .output "-d" none) = fun d => (true, d.2) := by
      funext d
      cbv
    have hquiet : t.write (.option .group "quiet" none) = fun d => (d.1, true) := by
      funext d
      cbv
    have hro : t.write (.option .group "ro" none) = id := by
      funext d
      cbv
    have hcommute : Function.Commute (fun d : Bool × Bool => (true, d.2)) fun d => (d.1, true) :=
      fun _ => rfl
    simpa [items, List.pairwise_cons, hdebug, hquiet, hro] using
      And.intro hcommute Function.Commute.id_right
  obtain ⟨hout, hdata⟩ := data_parse_again hspaced hfields h
  exact ⟨hspaced, hfields, h, hrepeat, hapart, hout, (hdata hrepeat).2 hapart⟩

/-- A flag and a later field of a group may write one field, and a token that is kept twice may
write to another place the second time. -/
theorem data_parse_again_ne :
    let size : Field (Option Int64) := .of fun _ (x : Int64) => some x
    let shared := (((Table.empty.addField "-x=%d" size).addKeep "-x=%d").addField "x=%d" size).addKeep
      "x=%d"
    let next : Field (Int64 × Int64) := .of fun d (x : Int64) => if d.1 = 0 then (x, d.2) else (d.1, x)
    let twice := ((Table.empty.addKeep "-n=").addField "-n=%d" next).addKeep "-n=%d"
    ((∀ row ∈ shared.rows, ∀ token, ¬ row.templ.IsSpacedName token) ∧ shared.PassesFieldsOn ∧
      (parse shared none none (.ofList ["prog", "-x=1", "-o", "x=2"])).result =
        .ok (.ofList ["prog", "-o", "x=2", "-x=1"]) ∧
      (parse shared none none (.ofList ["prog", "-x=1", "-o", "x=2"])).data = some 2 ∧
      (parse shared none none (.ofList ["prog", "-o", "x=2", "-x=1"])).data = some 1) ∧
    (∀ row ∈ twice.rows, ∀ token, ¬ row.templ.IsSpacedName token) ∧ twice.PassesFieldsOn ∧
      (parse twice none (0, 0) (.ofList ["prog", "-n=5"])).result =
        .ok (.ofList ["prog", "-n=5", "-n=5"]) ∧
      (parse twice none (0, 0) (.ofList ["prog", "-n=5"])).data = (5, 0) ∧
      (parse twice none (0, 0) (.ofList ["prog", "-n=5", "-n=5"])).data = (5, 5) := by
  intro size shared next twice
  have hplain : ∀ row ∈ shared.rows, row.templ.parts?.all fun p => !p.spaced := by decide
  have hplain' : ∀ row ∈ twice.rows, row.templ.parts?.all fun p => !p.spaced := by decide
  have hbase : (Table.empty.addKeep "-n=" : Table (Int64 × Int64)).PassesFieldsOn := by
    constructor
    · intro row hrow field fixed hdest
      cases List.mem_singleton.mp hrow
      cases hdest
    · intro row hrow field fixed hdest
      cases List.mem_singleton.mp hrow
      cases hdest
  refine ⟨⟨fun row hrow => Template.not_isSpacedName (hplain row hrow), ?_, by cbv, by cbv, by cbv⟩,
    fun row hrow => Template.not_isSpacedName (hplain' row hrow), ?_, by cbv, by cbv, by cbv⟩
  · exact (Table.passesFieldsOn_empty.addValue_addKeep ⟨_, _, _, rfl⟩ (by decide)
      0).addValue_addKeep ⟨_, _, _, rfl⟩ (by decide) 0
  · exact hbase.addValue_addKeep ⟨_, _, _, rfl⟩ (by decide) 0

end GroupedOptions
