import GroupedOptions.Proofs.NormalForm

/-!
# Passing a vector through twice

A table that keeps every token once changes a vector only where a value came in
a token of its own, which is attached to its name. A second parse meets the
attached form. It leaves the vector as it is if that form still is an option
with a value; an empty value leaves the bare name behind, which then takes the
next token for its value.
-/
namespace GroupedOptions

variable {D : Type}

namespace Item

/-- The value that came in a token of its own. -/
def value? : Item → Option String
  | .positional _ => none
  | .option _ _ value => value

@[simp] theorem value?_positional (token : String) : (positional token).value? = none := rfl

@[simp] theorem value?_option (place : Place) (token : String) (value : Option String) :
    (option place token value).value? = value := rfl

/-- A value in a token of its own is non-empty, and with it a flag stays a flag. -/
def AttachesPlainly (item : Item) : Prop :=
  ∀ value ∈ item.value?, value ≠ "" ∧ (item.place = .output → Shape.of item.text = .flag)

end Item

namespace Table

variable {t : Table D}

/-- Every value in a token of its own attaches plainly. -/
def AttachesPlainly (t : Table D) (tokens : List String) : Prop :=
  ∀ items operands, t.Reads tokens items operands → ∀ item ∈ items, item.AttachesPlainly

/-- With something attached, a bare name is no bare name any more, of its own row or another. -/
theorem MatchesOnce.not_awaits_append (honce : t.MatchesOnce) {name value : String}
    (hw : t.Awaits name) (hne : value ≠ "") : ¬ t.Awaits (name ++ value) := by
  intro hw'
  obtain ⟨row, hrow, hname⟩ := t.awaits_iff.mp hw
  obtain ⟨row', hrow', hname'⟩ := t.awaits_iff.mp hw'
  have hmem : (⟨row, name.utf8ByteSize⟩ : Hit D) ∈ t.lookup (name ++ value) :=
    t.mem_lookup.mpr ⟨hrow, hname.match?_append value⟩
  have hmem' : (⟨row', (name ++ value).utf8ByteSize⟩ : Hit D) ∈ t.lookup (name ++ value) :=
    t.mem_lookup.mpr ⟨hrow', hname'.match?⟩
  rw [honce.lookup_eq hmem] at hmem'
  have hsame : row' = row := congrArg Hit.row (List.mem_singleton.mp hmem')
  rw [hsame] at hname'
  exact hname.not_append hne hname'

theorem not_awaits_text (honce : t.MatchesOnce) {place : Place} {token : String}
    {value : Option String} (hread : t.IsRead (.option place token value))
    (hplain : (Item.option place token value).AttachesPlainly) :
    ¬ t.Awaits (token ++ value.getD "") := by
  cases value with
  | none => simpa using hread.2
  | some value => exact honce.not_awaits_append (hread.2.mp rfl) (hplain value rfl).1

theorem not_awaits_of_mem_itemFields (hkeep : t.KeepsOnly) (honce : t.MatchesOnce) {item : Item}
    (hread : t.IsRead item) (hplain : item.AttachesPlainly) {f : String}
    (hf : f ∈ t.itemFields item) : ¬ t.Awaits f := by
  rw [itemFields_of_keepsOnly hkeep honce hread] at hf
  cases item with
  | positional token => cases hf
  | option place token value =>
    cases place with
    | output => cases hf
    | group =>
      cases List.mem_singleton.mp hf
      exact not_awaits_text honce hread hplain

theorem isSettled_of_mem_itemOutput (hkeep : t.KeepsOnly) (honce : t.MatchesOnce) {item : Item}
    (hread : t.IsRead item) (hplain : item.AttachesPlainly) {token : String}
    (h : token ∈ t.itemOutput item) : t.IsSettled token := by
  rw [itemOutput_of_keepsOnly hkeep honce hread] at h
  cases item with
  | positional token =>
    cases List.mem_singleton.mp h
    exact .inl hread
  | option place token value =>
    cases place with
    | group => cases h
    | output =>
      cases List.mem_singleton.mp h
      refine .inr ⟨?_, not_awaits_text honce hread hplain⟩
      cases value with
      | none => simpa using hread.1 rfl
      | some value => exact (hplain value rfl).2 rfl

theorem Reads.not_awaits_of_mem_fields (hkeep : t.KeepsOnly) (honce : t.MatchesOnce)
    {tokens : List String} {items : List Item} {operands : Option (List String)}
    (h : t.Reads tokens items operands) (hplain : ∀ item ∈ items, item.AttachesPlainly) :
    ∀ f ∈ items.flatMap t.itemFields, ¬ t.Awaits f := by
  intro f hf
  obtain ⟨item, hitem, hf⟩ := List.mem_flatMap.mp hf
  exact not_awaits_of_mem_itemFields hkeep honce (h.isRead item hitem) (hplain item hitem) hf

theorem Reads.isSettled_of_mem_output (hkeep : t.KeepsOnly) (honce : t.MatchesOnce)
    {tokens : List String} {items : List Item} {operands : Option (List String)}
    (h : t.Reads tokens items operands) (hplain : ∀ item ∈ items, item.AttachesPlainly) :
    ∀ token ∈ items.flatMap t.itemOutput, t.IsSettled token := by
  intro token htoken
  obtain ⟨item, hitem, htoken⟩ := List.mem_flatMap.mp htoken
  exact isSettled_of_mem_itemOutput hkeep honce (h.isRead item hitem) (hplain item hitem) htoken

/-- An item that a second parse can take as it stands was attached plainly. -/
theorem attachesPlainly_of_isSettled (hkeep : t.KeepsOnly) (honce : t.MatchesOnce)
    (hdash : ¬ t.Awaits "-") {item : Item} (hread : t.IsRead item)
    (hfields : ∀ f ∈ t.itemFields item, ¬ t.Awaits f)
    (houtput : ∀ token ∈ t.itemOutput item, t.IsSettled token) : item.AttachesPlainly := by
  intro value hvalue
  rw [itemFields_of_keepsOnly hkeep honce hread] at hfields
  rw [itemOutput_of_keepsOnly hkeep honce hread] at houtput
  cases item with
  | positional token => cases hvalue
  | option place name value' =>
    cases hvalue
    have hw : t.Awaits name := hread.2.mp rfl
    have hname : name ≠ "-" := by
      rintro rfl
      exact hdash hw
    constructor
    · rintro rfl
      cases place with
      | group => exact hfields name (by simp) hw
      | output =>
        obtain hs | hs := houtput name (by simp)
        · cases (hread.1 rfl).symm.trans hs
        · exact hs.2 hw
    · intro hplace
      exact Shape.of_append_eq_flag (hread.1 hplace) hname value

theorem ReadsFields.place_eq {fields : List (Except Group.DecodeError String)}
    {tokens rest : List String} {items : List Item} (h : t.ReadsFields fields tokens items rest) :
    ∀ item ∈ items, item.place = .group := by
  induction h with
  | nil => simp
  | alone _ _ ih => simpa using ih
  | valued _ _ ih => simpa using ih

theorem ReadsFields.length_eq {fields : List (Except Group.DecodeError String)}
    {tokens rest : List String} {items : List Item} (h : t.ReadsFields fields tokens items rest) :
    tokens.length = items.countP (·.value?.isSome) + rest.length := by
  induction h with
  | nil => simp
  | alone _ _ ih => simpa using ih
  | valued _ _ ih =>
    simp only [List.length_cons, List.countP_cons, Item.value?_option, ih]
    simp only [Option.isSome_some, if_true]
    omega

/-- The tokens that a reading cannot do without: one for every item that is no field, one for
every value, and the operands with their separator. -/
def readSize (items : List Item) (operands : Option (List String)) : Nat :=
  items.countP (·.place = .output) + items.countP (·.value?.isSome) +
    (separated (operands.getD [])).length

theorem readSize_cons (item : Item) (items : List Item) (operands : Option (List String)) :
    readSize (item :: items) operands = readSize items operands +
      ((if item.place = .output then 1 else 0) + (if item.value?.isSome then 1 else 0)) := by
  simp only [readSize, List.countP_cons, decide_eq_true_eq]
  omega

theorem readSize_append_of_readsFields {fields : List (Except Group.DecodeError String)}
    {tokens rest : List String} {items items' : List Item} {operands : Option (List String)}
    (h : t.ReadsFields fields tokens items rest) (hrest : readSize items' operands ≤ rest.length) :
    readSize (items ++ items') operands ≤ tokens.length := by
  have hplace : items.countP (·.place = .output) = 0 := by
    rw [List.countP_eq_zero]
    intro item hmem
    simp [h.place_eq item hmem]
  have hlength := h.length_eq
  unfold readSize at hrest ⊢
  rw [List.countP_append, List.countP_append]
  omega

theorem Reads.readSize_le {tokens : List String} {items : List Item}
    {operands : Option (List String)} (h : t.Reads tokens items operands) :
    readSize items operands ≤ tokens.length := by
  induction h with
  | nil => simp [readSize, separated]
  | separator _ =>
    simp only [readSize, separated, Option.getD_some, List.countP_nil]
    split <;> simp
  | positional _ _ ih => simpa [readSize_cons] using ih
  | flag _ _ _ ih => simpa [readSize_cons] using ih
  | valuedFlag _ _ _ ih => simpa [readSize_cons] using ih
  | attachedGroup _ _ hf _ ih =>
    exact (readSize_append_of_readsFields hf ih).trans (Nat.le_add_right _ 1)
  | group _ hf _ ih => exact (readSize_append_of_readsFields hf ih).trans (Nat.le_add_right _ 2)

/-- The group of a rebuilt vector makes up for none of the tokens after it. -/
theorem Reads.readSize_le_of_groupArgs {fields tokens : List String} {items : List Item}
    {operands : Option (List String)} (h : t.Reads (groupArgs fields ++ tokens) items operands) :
    readSize items operands ≤ tokens.length := by
  cases fields with
  | nil => exact h.readSize_le
  | cons f fs =>
    change t.Reads ("-o" :: Group.joined (f :: fs) :: tokens) items operands at h
    have hshape : Shape.of "-o" = .group "" := rfl
    cases h with
    | group _ hf hread => exact readSize_append_of_readsFields hf hread.readSize_le
    | attachedGroup hs hne _ _ =>
      cases hshape.symm.trans hs
      exact absurd rfl hne
    | separator hs | positional hs _ | flag hs _ _ | valuedFlag hs _ _ =>
      cases hshape.symm.trans hs

theorem length_output_kept (items : List Item) :
    (items.flatMap fun item => (Emission.kept item.place item.text).output).length =
      items.countP (·.place = .output) := by
  induction items with
  | nil => rfl
  | cons item items ih =>
    rw [List.flatMap_cons, List.length_append, ih, List.countP_cons]
    cases item.place <;> simp [Nat.add_comm]

/-- A table that keeps every token once, and finds in a vector what it kept before, has taken no
token for a value. -/
theorem Reads.value?_eq_none {fields tokens : List String} {items : List Item}
    {operands : Option (List String)} (hkeep : t.KeepsOnly) (honce : t.MatchesOnce)
    (h : t.Reads (groupArgs fields ++ (tokens ++ separated (operands.getD []))) items operands)
    (htokens : items.flatMap t.itemOutput = tokens) : ∀ item ∈ items, item.value? = none := by
  have hsize := h.readSize_le_of_groupArgs
  have hlength : tokens.length = items.countP (·.place = .output) := by
    rw [← htokens, ← length_output_kept, List.flatMap_congr fun item hmem =>
      itemOutput_of_keepsOnly hkeep honce (h.isRead item hmem)]
  rw [readSize, List.length_append] at hsize
  have hvalues : items.countP (·.value?.isSome) = 0 := by omega
  intro item hmem
  simpa using List.countP_eq_zero.mp hvalues item hmem

end Table

theorem parse_again_of_attachesPlainly {t : Table D} {data : D} {args out : ArgVec}
    (hkeep : t.KeepsOnly) (honce : t.MatchesOnce)
    (h : (parse t none data args).result = .ok out)
    (hplain : t.AttachesPlainly args.toList.tail) (data' : D) :
    (parse t none data' out).result = .ok out := by
  cases hargs : args.toList with
  | nil =>
    rw [parse_of_toList_eq_nil hargs] at h
    cases h
    rfl
  | cons program tokens =>
    obtain ⟨items, operands, hread, rfl⟩ := layout_of_parse_ok hargs h
    rw [hargs] at hplain
    have hitems := hplain items operands hread
    exact Table.parse_layout hkeep honce (hread.not_awaits_of_mem_fields hkeep honce hitems)
      (hread.isSettled_of_mem_output hkeep honce hitems) program _ data'

theorem attachesPlainly_of_parse_again {t : Table D} {data data' : D} {args out : ArgVec}
    (hkeep : t.KeepsOnly) (honce : t.MatchesOnce) (hdash : ¬ t.Awaits "-")
    (h : (parse t none data args).result = .ok out)
    (hagain : (parse t none data' out).result = .ok out) :
    t.AttachesPlainly args.toList.tail := by
  intro items operands hread item hitem
  cases hargs : args.toList with
  | nil =>
    rw [hargs] at hread
    cases hread
    cases hitem
  | cons program tokens =>
    rw [hargs] at hread
    obtain ⟨items₁, operands₁, hread₁, rfl⟩ := layout_of_parse_ok hargs h
    obtain ⟨rfl, rfl⟩ := hread.unique hread₁
    obtain ⟨items', operands', hread', hout⟩ := layout_of_parse_ok rfl hagain
    obtain ⟨hfields, htokens, hoperands⟩ := layout_injective (hread.shape_of_mem_output hdash)
      (hread'.shape_of_mem_output hdash) (congrArg ArgVec.items hout)
    -- The second reading takes no token for a value, so all that it keeps is settled.
    rw [hoperands] at hread'
    have hnone := hread'.value?_eq_none hkeep honce htokens.symm
    have hplain : ∀ item' ∈ items', item'.AttachesPlainly := by
      intro item' hmem value hvalue
      rw [hnone item' hmem] at hvalue
      cases hvalue
    apply Table.attachesPlainly_of_isSettled hkeep honce hdash (hread.isRead item hitem)
    · intro f hf
      apply hread'.not_awaits_of_mem_fields hkeep honce hplain
      rw [← hfields]
      exact List.mem_flatMap.mpr ⟨item, hitem, hf⟩
    · intro token htoken
      apply hread'.isSettled_of_mem_output hkeep honce hplain
      rw [← htokens]
      exact List.mem_flatMap.mpr ⟨item, hitem, htoken⟩

/-- A table that keeps every token once passes its own output through unchanged if every value in
a token of its own was attached plainly, and only then where no row awaits a value after a lone
dash. -/
theorem parse_again_of_parse_ok {t : Table D} {data : D} {args out : ArgVec}
    (hkeep : t.KeepsOnly) (honce : t.MatchesOnce)
    (h : (parse t none data args).result = .ok out) (data' : D) :
    (t.AttachesPlainly args.toList.tail → (parse t none data' out).result = .ok out) ∧
      ((∀ row ∈ t.rows, ¬ row.templ.IsSpacedName "-") →
        (parse t none data' out).result = .ok out → t.AttachesPlainly args.toList.tail) := by
  constructor
  · intro hplain
    exact parse_again_of_attachesPlainly hkeep honce h hplain data'
  · intro hdash hagain
    exact attachesPlainly_of_parse_again hkeep honce (Table.not_awaits_iff.mpr hdash) h hagain

theorem Table.keepsOnly_addKeep {t : Table D} (h : t.KeepsOnly) (templ : String) :
    (t.addKeep templ).KeepsOnly := by
  intro row hrow
  obtain hrow | hrow := List.mem_append.mp hrow
  · exact h row hrow
  · rw [List.mem_singleton.mp hrow]
    rfl

theorem Table.matchesOnce_of_size_le_one {t : Table D} (h : t.size ≤ 1) : t.MatchesOnce :=
  fun _ => (List.length_filterMap_le _ _).trans h

theorem parse_again_of_parse_ok_port :
    let t : Table Unit := Table.empty.addKeep "-p %s"
    let args := ArgVec.ofList ["prog", "-p", "8", "-o", "-p,ro", "9", "in"]
    let out := ArgVec.ofList ["prog", "-o", "-p9,ro", "-p8", "in"]
    t.KeepsOnly ∧ t.MatchesOnce ∧ (parse t none () args).result = .ok out ∧
      t.AttachesPlainly args.toList.tail ∧ (parse t none () out).result = .ok out := by
  intro t args out
  have hkeep : t.KeepsOnly := Table.keepsOnly_addKeep Table.keepsOnly_empty _
  have honce : t.MatchesOnce := Table.matchesOnce_of_size_le_one le_rfl
  have h : (parse t none () args).result = .ok out := by cbv
  have hgroup : Group.fields "-p,ro" = [.ok "-p", .ok "ro"] := by cbv
  have hfields : t.ReadsFields (Group.fields "-p,ro") ["9", "in"]
      [.option .group "-p" (some "9"), .option .group "ro" none] ["in"] := by
    rw [hgroup]
    exact .valued (by decide) (.alone (by decide) .nil)
  have hread : t.Reads args.toList.tail (.option .output "-p" (some "8") ::
      ([.option .group "-p" (some "9"), .option .group "ro" none] ++ [.positional "in"])) none :=
    .valuedFlag rfl (by decide) (.group rfl hfields (.positional rfl .nil))
  have hplain : t.AttachesPlainly args.toList.tail := by
    intro items operands hread'
    obtain ⟨rfl, rfl⟩ := hread.unique hread'
    have hflag : Shape.of "-p8" = .flag := rfl
    simp [Item.AttachesPlainly, hflag]
  exact ⟨hkeep, honce, h, hplain, (parse_again_of_parse_ok hkeep honce h ()).1 hplain⟩

/-- An empty value leaves the bare name, and a dash attached to a dash is the separator. -/
theorem parse_again_ne :
    let port : Table Unit := Table.empty.addKeep "-p %s"
    let dash : Table Unit := Table.empty.addKeep "- %s"
    (port.KeepsOnly ∧ port.MatchesOnce ∧
      (parse port none () (.ofList ["prog", "-p", "", "x"])).result =
        .ok (.ofList ["prog", "-p", "x"]) ∧
      (parse port none () (.ofList ["prog", "-p", "x"])).result = .ok (.ofList ["prog", "-px"]) ∧
      (parse port none () (.ofList ["prog", "-p", "x"])).result ≠
        .ok (.ofList ["prog", "-p", "x"])) ∧
    (dash.KeepsOnly ∧ dash.MatchesOnce ∧
      (parse dash none () (.ofList ["prog", "-", "-"])).result = .ok (.ofList ["prog", "--"]) ∧
      (parse dash none () (.ofList ["prog", "--"])).result = .ok (.ofList ["prog"]) ∧
      (parse dash none () (.ofList ["prog", "--"])).result ≠ .ok (.ofList ["prog", "--"])) := by
  intro port dash
  have hport : (parse port none () (.ofList ["prog", "-p", "x"])).result =
      .ok (.ofList ["prog", "-px"]) := by cbv
  have hdash : (parse dash none () (.ofList ["prog", "--"])).result = .ok (.ofList ["prog"]) := by
    cbv
  have hkeep : ∀ templ, (Table.empty.addKeep templ : Table Unit).KeepsOnly :=
    Table.keepsOnly_addKeep Table.keepsOnly_empty
  refine ⟨⟨hkeep _, Table.matchesOnce_of_size_le_one le_rfl, by cbv, hport, ?_⟩,
    hkeep _, Table.matchesOnce_of_size_le_one le_rfl, by cbv, hdash, ?_⟩
  · rw [hport]
    simp [ArgVec.ofList]
  · rw [hdash]
    simp [ArgVec.ofList]

end GroupedOptions
