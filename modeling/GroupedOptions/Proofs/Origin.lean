import GroupedOptions.Proofs.Reading

/-!
# Where steps come from

A parse that fails has no reading, yet each of its steps has its reason among the tokens: an option
of theirs and a row that matches it, a group that does not decode, or a value or group that never
came. What the cursor holds between two tokens has its reason there too, and that carries the
induction over the tokens.
-/
namespace GroupedOptions

variable {D : Type}

/-- A group among tokens: what is attached to `-o`, or the token after a bare one. -/
def IsGroup (tokens : List String) (group : String) : Prop :=
  ["-o", group] <:+: tokens ∨ ∃ token ∈ tokens, Shape.of token = .group group ∧ group ≠ ""

/-- A field of a group among tokens, decoded or not. -/
def IsField (tokens : List String) (field : Except Group.DecodeError String) : Prop :=
  ∃ group, IsGroup tokens group ∧ field ∈ Group.fields group

/-- An option among tokens: a flag, or a decoded field of a group. -/
def IsOption (tokens : List String) (token : String) : Prop :=
  (token ∈ tokens ∧ Shape.of token = .flag) ∨ IsField tokens (.ok token)

theorem eq_of_shape_eq_group {token : String} (h : Shape.of token = .group "") : token = "-o" := by
  apply String.toList_injective
  unfold Shape.of at h
  split at h
  next attached heq =>
    have hattached : attached = [] := by simpa using h
    rw [heq, hattached]
    rfl
  · cases h
  · cases h
  · cases h

namespace Table

/-- `t.Gives tokens step`: the tokens are a reason for the step. -/
inductive Gives (t : Table D) (tokens : List String) : Step D → Prop
  | positional {token} : token ∈ tokens → Gives t tokens (.offer .positional .output token)
  | unmatched {place token} : IsOption tokens token → t.lookup token = [] →
      Gives t tokens (.offer .unmatched place token)
  | hit {hit place token value} : IsOption tokens token → hit ∈ t.lookup token →
      Gives t tokens (hit.stepWith place token value)
  | separator : Gives t tokens .separator
  | invalidGroup {cause} : IsField tokens (.error cause) →
      Gives t tokens (.fail (.invalidGroup cause))
  | missingValue {token} : IsOption tokens token → t.Awaits token →
      Gives t tokens (.fail (.missingArgument token))
  | missingGroup : ["-o"] <:+ tokens → Gives t tokens (.fail (.missingArgument "-o"))

/-- What a cursor holds has its reason among the tokens, of which it has seen `done`. -/
def Explains (t : Table D) (tokens done : List String) : Cursor D → Prop
  | .options | .operands => True
  | .awaitingGroup => ["-o"] <:+ done
  | .awaitingValue token _ hits fields =>
      IsOption tokens token ∧ t.Awaits token ∧ (∀ hit ∈ hits, hit ∈ t.lookup token) ∧
        ∀ field ∈ fields, IsField tokens field

variable {t : Table D} {tokens : List String}

theorem gives_optionSteps {token : String} (h : IsOption tokens token) (place : Place) :
    (∀ step ∈ (t.optionSteps place token).1, t.Gives tokens step) ∧
      (∀ hit ∈ (t.optionSteps place token).2, hit ∈ t.lookup token ∧ t.Awaits token) := by
  by_cases hw : t.Awaits token
  · have hl : t.lookup token ≠ [] := by
      obtain ⟨hit, hmem, _⟩ := hw
      exact List.ne_nil_of_mem hmem
    rw [t.optionSteps_of_matched hl]
    constructor
    · intro step hstep
      obtain ⟨hit, hmem, rfl⟩ := List.mem_map.mp hstep
      have hnot : hit.awaitsValue token = false := by simpa using List.mem_takeWhile_imp hmem
      rw [← Hit.stepWith_of_not_awaitsValue hnot place ""]
      exact .hit h ((List.takeWhile_sublist _).subset hmem)
    · intro hit hmem
      exact ⟨(List.dropWhile_sublist _).subset hmem, hw⟩
  · rw [t.optionSteps_of_not_awaits hw]
    refine ⟨?_, by simp⟩
    intro step hstep
    by_cases hl : t.lookup token = []
    · rw [t.itemSteps_of_unmatched hl, List.mem_singleton] at hstep
      subst hstep
      exact .unmatched h hl
    · rw [t.itemSteps_of_matched hl] at hstep
      obtain ⟨hit, hmem, rfl⟩ := List.mem_map.mp hstep
      exact .hit h hmem

theorem gives_groupSteps {fields : List (Except Group.DecodeError String)}
    (h : ∀ field ∈ fields, IsField tokens field) (done : List String) :
    (∀ step ∈ (t.groupSteps fields).1, t.Gives tokens step) ∧
      t.Explains tokens done (t.groupSteps fields).2 := by
  induction fields with
  | nil => exact ⟨by simp [groupSteps], trivial⟩
  | cons first fields ih =>
    obtain ⟨hsteps, hcursor⟩ := ih fun field hfield => h field (List.mem_cons_of_mem _ hfield)
    have hfirst : IsField tokens first := h first List.mem_cons_self
    cases first with
    | error cause =>
      refine ⟨?_, hcursor⟩
      intro step hstep
      rcases List.mem_cons.mp hstep with rfl | hstep
      · exact .invalidGroup hfirst
      · exact hsteps step hstep
    | ok field =>
      obtain ⟨hnow, hlater⟩ := t.gives_optionSteps (Or.inr hfirst) .group
      simp only [groupSteps]
      split
      next now hopt =>
        rw [hopt] at hnow
        refine ⟨?_, hcursor⟩
        intro step hstep
        rcases List.mem_append.mp hstep with hstep | hstep
        · exact hnow step hstep
        · exact hsteps step hstep
      -- The option waits for a value, so the fields after it wait in the cursor.
      next now hits hne hopt =>
        rw [hopt] at hnow hlater
        obtain ⟨hit, hmem⟩ := List.exists_mem_of_ne_nil hits hne
        refine ⟨hnow, Or.inr hfirst, (hlater hit hmem).2, fun hit hmem => (hlater hit hmem).1, ?_⟩
        exact fun field hfield => h field (List.mem_cons_of_mem _ hfield)

theorem isGroup_of_suffix {done : List String} {token : String} (h : ["-o"] <:+ done)
    (hseen : done ++ [token] <+: tokens) : IsGroup tokens token := by
  obtain ⟨before, rfl⟩ := h
  refine Or.inl (List.IsInfix.trans ?_ hseen.isInfix)
  exact ⟨before, [], by simp⟩

theorem gives_feed {done : List String} {cursor : Cursor D} (h : t.Explains tokens done cursor)
    {token : String} (hseen : done ++ [token] <+: tokens) :
    (∀ step ∈ (t.feed cursor token).1, t.Gives tokens step) ∧
      t.Explains tokens (done ++ [token]) (t.feed cursor token).2 := by
  have htoken : token ∈ tokens := hseen.subset (by simp)
  have hpositional : ∀ step ∈ [(.offer .positional .output token : Step D)],
      t.Gives tokens step := by
    intro step hstep
    rw [List.mem_singleton] at hstep
    subst hstep
    exact .positional htoken
  -- What the cursor holds was explained when it was put there; only between options does the token
  -- say for itself what it is.
  cases cursor with
  | operands => exact ⟨hpositional, trivial⟩
  | awaitingGroup =>
    have hgroup : IsGroup tokens token := isGroup_of_suffix h hseen
    exact gives_groupSteps (fun field hfield => ⟨token, hgroup, hfield⟩) _
  | awaitingValue name place hits fields =>
    obtain ⟨hname, _, hhits, hfields⟩ := h
    obtain ⟨hsteps, hcursor⟩ := t.gives_groupSteps hfields (done ++ [token])
    refine ⟨?_, hcursor⟩
    intro step hstep
    rcases List.mem_append.mp hstep with hstep | hstep
    · obtain ⟨hit, hmem, rfl⟩ := List.mem_map.mp hstep
      exact .hit hname (hhits hit hmem)
    · exact hsteps step hstep
  | options =>
    cases hs : Shape.of token with
    | positional =>
      rw [t.feed_positional hs]
      exact ⟨hpositional, trivial⟩
    | group group =>
      by_cases hne : group = ""
      · subst hne
        rw [t.feed_group hs, eq_of_shape_eq_group hs]
        exact ⟨by simp, List.suffix_append _ _⟩
      · rw [t.feed_attachedGroup hs hne]
        have hgroup : IsGroup tokens group := Or.inr ⟨token, htoken, hs, hne⟩
        exact gives_groupSteps (fun field hfield => ⟨group, hgroup, hfield⟩) _
    | separator =>
      have hfeed : t.feed .options token = ([.separator], .operands) := by simp [feed, hs]
      rw [hfeed]
      refine ⟨?_, trivial⟩
      intro step hstep
      rw [List.mem_singleton] at hstep
      subst hstep
      exact .separator
    | flag =>
      have hflag : IsOption tokens token := Or.inl ⟨htoken, hs⟩
      obtain ⟨hnow, hlater⟩ := t.gives_optionSteps hflag .output
      simp only [feed, hs]
      split
      next now hopt =>
        rw [hopt] at hnow
        exact ⟨hnow, trivial⟩
      next now hits hne hopt =>
        rw [hopt] at hnow hlater
        obtain ⟨hit, hmem⟩ := List.exists_mem_of_ne_nil hits hne
        exact ⟨hnow, hflag, (hlater hit hmem).2, fun hit hmem => (hlater hit hmem).1, by simp⟩

theorem gives_feedAll {done rest : List String} {cursor : Cursor D}
    (h : t.Explains tokens done cursor) (htokens : done ++ rest = tokens) :
    (∀ step ∈ (t.feedAll cursor rest).1, t.Gives tokens step) ∧
      t.Explains tokens tokens (t.feedAll cursor rest).2 := by
  induction rest generalizing done cursor with
  | nil =>
    rw [List.append_nil] at htokens
    subst htokens
    exact ⟨by simp, h⟩
  | cons token rest ih =>
    have hdone : (done ++ [token]) ++ rest = tokens := by simpa using htokens
    obtain ⟨hnow, hnext⟩ := gives_feed h ⟨rest, hdone⟩
    obtain ⟨hlater, hlast⟩ := ih hnext hdone
    refine ⟨?_, hlast⟩
    intro step hstep
    rcases List.mem_append.mp hstep with hstep | hstep
    · exact hnow step hstep
    · exact hlater step hstep

theorem gives_close {cursor : Cursor D} (h : t.Explains tokens tokens cursor) :
    ∀ step ∈ close cursor, t.Gives tokens step := by
  intro step hstep
  cases cursor with
  | options | operands => cases hstep
  | awaitingGroup =>
    rw [List.mem_singleton.mp hstep]
    exact .missingGroup h
  | awaitingValue token _ _ _ =>
    rw [List.mem_singleton.mp hstep]
    exact .missingValue h.1 h.2.1

/-- Every step of a parse has its reason among the tokens. -/
theorem gives_of_mem_steps {step : Step D} (h : step ∈ t.steps .options tokens) :
    t.Gives tokens step := by
  have hstart : t.Explains tokens [] .options := trivial
  obtain ⟨hsteps, hlast⟩ := t.gives_feedAll hstart (List.nil_append tokens)
  rcases List.mem_append.mp h with h | h
  · exact hsteps step h
  · exact gives_close hlast step h

theorem optionSteps_congr {t' : Table D} {token : String} (h : t.lookup token = t'.lookup token)
    (place : Place) : t.optionSteps place token = t'.optionSteps place token := by
  unfold optionSteps
  rw [h]

theorem groupSteps_congr {t' : Table D} {fields : List (Except Group.DecodeError String)}
    (h : ∀ field, .ok field ∈ fields → t.lookup field = t'.lookup field) :
    t.groupSteps fields = t'.groupSteps fields := by
  induction fields with
  | nil => rfl
  | cons first fields ih =>
    have hrest := ih fun field hmem => h field (List.mem_cons_of_mem _ hmem)
    cases first with
    | error e => simp only [groupSteps, hrest]
    | ok field =>
      simp only [groupSteps, hrest, optionSteps_congr (h field List.mem_cons_self)]

theorem feed_congr {t' : Table D} (h : ∀ token, IsOption tokens token →
      t.lookup token = t'.lookup token) {done : List String} {cursor : Cursor D}
    (hcursor : t.Explains tokens done cursor) {token : String}
    (hseen : done ++ [token] <+: tokens) : t.feed cursor token = t'.feed cursor token := by
  have hgroup {group : String} (hg : IsGroup tokens group) :
      t.groupSteps (Group.fields group) = t'.groupSteps (Group.fields group) :=
    groupSteps_congr fun field hmem => h field (Or.inr ⟨group, hg, hmem⟩)
  cases cursor with
  | operands => rfl
  | awaitingGroup => exact hgroup (isGroup_of_suffix hcursor hseen)
  | awaitingValue name place hits fields =>
    have hfields := groupSteps_congr fun field hmem => h field (Or.inr (hcursor.2.2.2 _ hmem))
    simp only [feed, hfields]
  | options =>
    have htoken : token ∈ tokens := hseen.subset (by simp)
    cases hs : Shape.of token with
    | positional | separator => simp only [feed, hs]
    | group group =>
      by_cases hne : group = ""
      · simp only [feed, hs, if_pos hne]
      · simp only [feed, hs, if_neg hne, hgroup (Or.inr ⟨token, htoken, hs, hne⟩)]
    | flag =>
      simp only [feed, hs, optionSteps_congr (h token (Or.inl ⟨htoken, hs⟩))]

/-- A parse depends on the table by what it finds for the options among the tokens. -/
theorem steps_congr {t' : Table D} (h : ∀ token, IsOption tokens token →
    t.lookup token = t'.lookup token) : t.steps .options tokens = t'.steps .options tokens := by
  have hfeed : ∀ rest done cursor, t.Explains tokens done cursor → done ++ rest = tokens →
      t.feedAll cursor rest = t'.feedAll cursor rest := by
    intro rest
    induction rest with
    | nil => intro _ _ _ _; rfl
    | cons token rest ih =>
      intro done cursor hcursor htokens
      have hdone : (done ++ [token]) ++ rest = tokens := by simpa using htokens
      have hseen : done ++ [token] <+: tokens := ⟨rest, hdone⟩
      have hnext := ih _ _ (gives_feed hcursor hseen).2 hdone
      simp only [feedAll, ← feed_congr h hcursor hseen, hnext]
  simp only [steps, hfeed tokens [] .options trivial rfl]

end Table

end GroupedOptions
