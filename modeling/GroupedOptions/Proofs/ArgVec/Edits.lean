import GroupedOptions.ArgVec
import Mathlib.Data.List.Forall2
import Mathlib.Data.List.Induction

/-!
# Vectors under edits

Starting from one vector, vectors are edited and cloned in any order. The main statement is that
each of them then has the items that its edits make of a plain list, that it holds them itself
exactly if the first vector did or one of its edits took effect, and that what is done to a vector
is seen in no other one, also not in one that lends the same items.
-/
namespace GroupedOptions

namespace ArgVec

/-- What is done to a vector in place. -/
inductive Edit where
  | add (arg : String)
  | insert (pos : Nat) (arg : String)
  | free
  | intoOwned
  | throughList
  deriving DecidableEq

namespace Edit

/-- The vector after an edit, and the error if there was one. The last edit takes the vector apart
into a list and makes it anew. -/
def apply (a : ArgVec) : Edit → ArgVec × Option PositionError
  | .add arg => (a.add arg, none)
  | .insert pos arg => a.insert pos arg
  | .free => (a.free, none)
  | .intoOwned => (a.intoOwned, none)
  | .throughList => (ofList a.toList, none)

/-- The same edit of a plain list, which is left as it is where there is no such position. -/
def onList (items : List String) : Edit → List String
  | .add arg => items ++ [arg]
  | .insert pos arg =>
      if pos ≤ items.length then items.take pos ++ arg :: items.drop pos else items
  | .free => []
  | .intoOwned | .throughList => items

/-- Every edit takes effect but an insertion beyond the end. -/
def TakesEffect (items : List String) : Edit → Prop
  | .insert pos _ => pos ≤ items.length
  | .add _ | .free | .intoOwned | .throughList => True

end Edit

variable {a b : ArgVec} {e : Edit} {cause : PositionError} {pos : Nat}

theorem insertIdx_eq_take_append_drop {items : List String} (h : pos ≤ items.length)
    (arg : String) : items.insertIdx pos arg = items.take pos ++ arg :: items.drop pos := by
  induction items generalizing pos with
  | nil =>
    cases Nat.le_zero.mp h
    rfl
  | cons item items ih =>
    cases pos with
    | zero => rfl
    | succ pos => simp [ih (Nat.le_of_succ_le_succ h)]

theorem insert_of_le (h : pos ≤ a.toList.length) (arg : String) :
    a.insert pos arg = (ofList (a.toList.take pos ++ arg :: a.toList.drop pos), none) := by
  rw [← insertIdx_eq_take_append_drop h]
  exact if_pos h

theorem insert_of_lt (h : a.toList.length < pos) (arg : String) :
    a.insert pos arg = (a, some ⟨pos, a.toList.length⟩) :=
  if_neg (Nat.not_le_of_lt h)

theorem Edit.apply_of_takesEffect (h : e.TakesEffect a.toList) :
    e.apply a = (ofList (e.onList a.toList), none) := by
  cases e with
  | insert pos arg =>
    have hpos : pos ≤ a.toList.length := h
    rw [onList, if_pos hpos]
    exact insert_of_le hpos arg
  | add _ | free | intoOwned | throughList => rfl

theorem Edit.exists_insert_of_not_takesEffect {items : List String}
    (h : ¬ e.TakesEffect items) : ∃ pos arg, e = .insert pos arg ∧ items.length < pos := by
  cases e with
  | insert pos arg => exact ⟨pos, arg, rfl, Nat.lt_of_not_le h⟩
  | add _ | free | intoOwned | throughList => exact absurd trivial h

theorem Edit.onList_of_not_takesEffect {items : List String} (h : ¬ e.TakesEffect items) :
    e.onList items = items := by
  obtain ⟨pos, arg, rfl, hlt⟩ := exists_insert_of_not_takesEffect h
  exact if_neg (Nat.not_le_of_lt hlt)

/-- An edit that fails is an insertion beyond the end, and the error names both. -/
theorem Edit.apply_eq_error_iff : (e.apply a).2 = some cause ↔
    ∃ pos arg, e = .insert pos arg ∧ a.toList.length < pos ∧ cause = ⟨pos, a.toList.length⟩ := by
  constructor
  · intro h
    by_cases he : e.TakesEffect a.toList
    · rw [apply_of_takesEffect he] at h
      cases h
    · obtain ⟨pos, arg, rfl, hlt⟩ := exists_insert_of_not_takesEffect he
      rw [apply, insert_of_lt hlt] at h
      cases h
      exact ⟨pos, arg, rfl, hlt, rfl⟩
  · rintro ⟨pos, arg, rfl, hlt, rfl⟩
    rw [apply, insert_of_lt hlt]

def edit (a : ArgVec) (e : Edit) : ArgVec := (e.apply a).1

theorem edit_of_takesEffect (h : e.TakesEffect a.toList) :
    a.edit e = ofList (e.onList a.toList) :=
  congrArg Prod.fst (Edit.apply_of_takesEffect h)

theorem edit_of_not_takesEffect (h : ¬ e.TakesEffect a.toList) : a.edit e = a := by
  obtain ⟨pos, arg, rfl, hlt⟩ := Edit.exists_insert_of_not_takesEffect h
  exact congrArg Prod.fst (insert_of_lt hlt arg)

/-- An edit that fails leaves the vector as it was, also a lent one. -/
theorem edit_of_error (h : (e.apply a).2 = some cause) : a.edit e = a := by
  obtain ⟨pos, arg, rfl, hlt, _⟩ := Edit.apply_eq_error_iff.mp h
  exact congrArg Prod.fst (insert_of_lt hlt arg)

@[simp] theorem toList_edit (a : ArgVec) (e : Edit) : (a.edit e).toList = e.onList a.toList := by
  by_cases h : e.TakesEffect a.toList
  · rw [edit_of_takesEffect h]
    rfl
  · rw [edit_of_not_takesEffect h, Edit.onList_of_not_takesEffect h]

/-- An edit that takes effect copies what is lent, and no other one does. -/
theorem owned_edit_iff (a : ArgVec) (e : Edit) :
    (a.edit e).owned = true ↔ a.owned = true ∨ e.TakesEffect a.toList := by
  by_cases h : e.TakesEffect a.toList
  · simp [edit_of_takesEffect h, ofList, h]
  · simp [edit_of_not_takesEffect h, h]

/-- Some edit in a row takes effect on what those before it have made of the items. -/
def Edit.SomeTakesEffect (items : List String) (history : List Edit) : Prop :=
  ∃ earlier e, earlier ++ [e] <+: history ∧ e.TakesEffect (earlier.foldl onList items)

theorem Edit.not_someTakesEffect_nil (items : List String) : ¬ SomeTakesEffect items [] := by
  simp [SomeTakesEffect]

theorem Edit.someTakesEffect_concat {items : List String} {history : List Edit} :
    SomeTakesEffect items (history ++ [e]) ↔
      SomeTakesEffect items history ∨ e.TakesEffect (history.foldl onList items) := by
  constructor
  · rintro ⟨earlier, last, hprefix, hlast⟩
    obtain heq | hprefix := List.prefix_concat_iff.mp hprefix
    · obtain ⟨rfl, hsingle⟩ := List.append_inj' heq rfl
      cases List.singleton_inj.mp hsingle
      exact .inr hlast
    · exact .inl ⟨earlier, last, hprefix, hlast⟩
  · rintro (⟨earlier, last, hprefix, hlast⟩ | he)
    · exact ⟨earlier, last, hprefix.trans (List.prefix_append _ _), hlast⟩
    · exact ⟨history, e, List.prefix_rfl, he⟩

/-- The vector `b` is what edits in this order make of `a`. As long as it lends its items, they are
those of `a`. -/
structure IsEdited (a : ArgVec) (history : List Edit) (b : ArgVec) : Prop where
  toList_eq : b.toList = history.foldl Edit.onList a.toList
  owned_iff : b.owned = true ↔ a.owned = true ∨ Edit.SomeTakesEffect a.toList history
  toList_of_lent : b.owned = false → b.toList = a.toList

namespace IsEdited

variable {history : List Edit}

theorem refl (a : ArgVec) : IsEdited a [] a where
  toList_eq := rfl
  owned_iff := by simp [Edit.not_someTakesEffect_nil]
  toList_of_lent _ := rfl

theorem edit (h : IsEdited a history b) (e : Edit) : IsEdited a (history ++ [e]) (b.edit e) where
  toList_eq := by simp [h.toList_eq]
  owned_iff := by
    rw [owned_edit_iff, h.owned_iff, h.toList_eq, Edit.someTakesEffect_concat, or_assoc]
  toList_of_lent hlent := by
    by_cases he : e.TakesEffect b.toList
    · rw [edit_of_takesEffect he] at hlent
      cases hlent
    · rw [edit_of_not_takesEffect he] at hlent ⊢
      exact h.toList_of_lent hlent

end IsEdited

theorem isEdited_foldl (a : ArgVec) (history : List Edit) :
    IsEdited a history (history.foldl edit a) := by
  -- From the end, where a history grows: only then does the last edit meet the items it is for.
  induction history using List.reverseRecOn with
  | nil => exact .refl a
  | append_singleton history e ih =>
    rw [List.foldl_concat]
    exact ih.edit e

/-- What is done with vectors that are known by their places: one of them is edited, or the clone of
one is put after the last. -/
inductive Action where
  | edit (place : Nat) (e : Edit)
  | clone (place : Nat)
  deriving DecidableEq

/-- What an action makes of things of any kind that edits change in this way. At a place where there
is nothing it does nothing. -/
def Action.on {α : Type} (change : α → Edit → α) (xs : List α) : Action → List α
  | .edit place e => xs.modify place fun x => change x e
  | .clone place => xs ++ xs[place]?.toList

def vectorsAfter (a : ArgVec) (actions : List Action) : List ArgVec :=
  actions.foldl (Action.on edit) [a]

/-- The edits that each vector has gone through, a clone with those of its original before. -/
def historiesAfter (actions : List Action) : List (List Edit) :=
  actions.foldl (Action.on fun history e => history ++ [e]) [[]]

section Actions

variable {α β : Type} {change : α → Edit → α} {change' : β → Edit → β} {f : α → β}

theorem Action.map_on (h : ∀ x e, f (change x e) = change' (f x) e) (xs : List α)
    (action : Action) : (action.on change xs).map f = action.on change' (xs.map f) := by
  cases action with
  | edit place e =>
    apply List.ext_getElem?
    intro i
    simp only [on, List.getElem?_map, List.getElem?_modify]
    split <;> simp [Function.comp_def, h]
  | clone place => cases hplace : xs[place]? <;> simp [on, hplace]

end Actions

/-- Where the edits of a vector stand among the other actions has no part in what it becomes. -/
theorem vectorsAfter_eq_map (a : ArgVec) (actions : List Action) :
    vectorsAfter a actions = (historiesAfter actions).map fun history => history.foldl edit a := by
  have hstep (histories : List (List Edit)) (action : Action) :
      action.on edit (histories.map fun history => history.foldl edit a) =
        (action.on (fun history e => history ++ [e]) histories).map
          fun history => history.foldl edit a :=
    (Action.map_on (fun _ _ => List.foldl_concat ..) histories action).symm
  calc vectorsAfter a actions
      = actions.foldl (Action.on edit) ([[]].map fun history => history.foldl edit a) := rfl
    _ = (historiesAfter actions).map fun history => history.foldl edit a :=
      List.foldl_hom _ hstep

theorem vectorsAfter_append (a : ArgVec) (actions more : List Action) :
    vectorsAfter a (actions ++ more) = more.foldl (Action.on edit) (vectorsAfter a actions) :=
  List.foldl_append

section Step

variable {actions : List Action} {place : Nat}

/-- An edit is seen at its place alone. -/
theorem vectorsAfter_edit (hplace : (vectorsAfter a actions)[place]? = some b) (e : Edit) :
    vectorsAfter a (actions ++ [.edit place e]) =
      (vectorsAfter a actions).set place (b.edit e) := by
  rw [vectorsAfter_append]
  simp [Action.on, List.modify_eq_set_getElem?, hplace]

theorem vectorsAfter_edit_of_error (hplace : (vectorsAfter a actions)[place]? = some b)
    (happly : (e.apply b).2 = some cause) :
    vectorsAfter a (actions ++ [.edit place e]) = vectorsAfter a actions := by
  obtain ⟨hlt, hget⟩ := List.getElem?_eq_some_iff.mp hplace
  rw [vectorsAfter_edit hplace, edit_of_error happly, ← hget, List.set_getElem_self]

theorem vectorsAfter_clone (hplace : (vectorsAfter a actions)[place]? = some b) :
    vectorsAfter a (actions ++ [.clone place]) = vectorsAfter a actions ++ [b] := by
  rw [vectorsAfter_append]
  simp [Action.on, hplace]

/-- What is done to a clone is not seen in its original, nor in any other vector that was there
before. -/
theorem vectorsAfter_clone_edit (hplace : (vectorsAfter a actions)[place]? = some b) (e : Edit) :
    vectorsAfter a (actions ++ [.clone place, .edit (vectorsAfter a actions).length e]) =
      vectorsAfter a actions ++ [b.edit e] := by
  have hclone := vectorsAfter_clone hplace
  -- The clone is at the place that follows those of the vectors before it.
  have hlast : (vectorsAfter a (actions ++ [.clone place]))[(vectorsAfter a actions).length]? =
      some b := by
    rw [hclone]
    exact List.getElem?_concat_length
  rw [List.append_cons actions, vectorsAfter_edit hlast, hclone]
  simp

end Step

theorem beq_iff_toList_eq (a b : ArgVec) : (a == b) = true ↔ a.toList = b.toList :=
  show (a.items == b.items) = true ↔ a.items = b.items from beq_iff_eq

/-- Each vector has the items that its edits make of a plain list, and holds them itself exactly if
the first vector did or one of those edits took effect. An insertion beyond the end, and nothing
else, fails and changes nothing; any other edit changes its own vector alone, so that a clone has no
part in its original. Vectors are compared by their items. -/
theorem vectorsAfter_edited (a : ArgVec) (actions : List Action) :
    List.Forall₂ (IsEdited a) (historiesAfter actions) (vectorsAfter a actions) ∧
      (∀ place b (e : Edit), (vectorsAfter a actions)[place]? = some b →
        (∀ cause, (e.apply b).2 = some cause ↔ ∃ pos arg, e = .insert pos arg ∧
          b.toList.length < pos ∧ cause = ⟨pos, b.toList.length⟩) ∧
        (∀ cause, (e.apply b).2 = some cause → (e.apply b).1 = b ∧
          vectorsAfter a (actions ++ [.edit place e]) = vectorsAfter a actions) ∧
        vectorsAfter a (actions ++ [.edit place e]) =
          (vectorsAfter a actions).set place (e.apply b).1 ∧
        vectorsAfter a (actions ++ [.clone place, .edit (vectorsAfter a actions).length e]) =
          vectorsAfter a actions ++ [b.edit e]) ∧
      ∀ b c : ArgVec, (b == c) = true ↔ b.toList = c.toList := by
  refine ⟨?_, fun place b e hplace => ⟨?_, ?_, ?_, ?_⟩, beq_iff_toList_eq⟩
  · rw [vectorsAfter_eq_map, List.forall₂_map_right_iff, List.forall₂_same]
    exact fun history _ => isEdited_foldl a history
  · exact fun cause => Edit.apply_eq_error_iff
  · exact fun cause happly => ⟨edit_of_error happly, vectorsAfter_edit_of_error hplace happly⟩
  · exact vectorsAfter_edit hplace e
  · exact vectorsAfter_clone_edit hplace e

/-- An insertion that fails copies nothing, and a clone goes on lending when its original no longer
does. -/
theorem vectorsAfter_edited_lent :
    let a := borrowed ["prog", "mnt"]
    let actions : List Action := [.edit 0 (.insert 3 "x"), .clone 0, .edit 0 (.insert 1 "-v")]
    let vectors := [ofList ["prog", "-v", "mnt"], borrowed ["prog", "mnt"]]
    historiesAfter actions = [[.insert 3 "x", .insert 1 "-v"], [.insert 3 "x"]] ∧
      vectorsAfter a actions = vectors ∧
      IsEdited a [.insert 3 "x"] (borrowed ["prog", "mnt"]) ∧
      (Edit.insert 3 "x").apply (borrowed ["prog", "mnt"]) =
        (borrowed ["prog", "mnt"], some ⟨3, 2⟩) ∧
      vectorsAfter a (actions ++ [.edit 1 (.insert 3 "x")]) = vectors ∧
      vectorsAfter a (actions ++ [.clone 1, .edit 2 (.add "-q")]) =
        vectors ++ [ofList ["prog", "mnt", "-q"]] ∧
      (ofList ["prog", "mnt"] == borrowed ["prog", "mnt"]) = true := by
  intro a actions vectors
  have hvectors : vectorsAfter a actions = vectors := rfl
  have hhistories : historiesAfter actions =
      [[.insert 3 "x", .insert 1 "-v"], [.insert 3 "x"]] := rfl
  obtain ⟨hedited, hstep, hbeq⟩ := vectorsAfter_edited a actions
  rw [hvectors, hhistories] at hedited
  obtain ⟨hfails, hunchanged, -, -⟩ := hstep 1 (borrowed ["prog", "mnt"]) (.insert 3 "x") rfl
  obtain ⟨-, -, -, hclone⟩ := hstep 1 (borrowed ["prog", "mnt"]) (.add "-q") rfl
  have hfailed : ((Edit.insert 3 "x").apply (borrowed ["prog", "mnt"])).2 = some ⟨3, 2⟩ :=
    (hfails _).mpr ⟨3, "x", rfl, by decide, rfl⟩
  obtain ⟨hsame, hvectors'⟩ := hunchanged _ hfailed
  exact ⟨hhistories, hvectors, (List.forall₂_cons.mp (List.forall₂_cons.mp hedited).2).1,
    Prod.ext hsame hfailed, hvectors', hclone, (hbeq _ _).mpr rfl⟩

end ArgVec
end GroupedOptions
