import GroupedOptions.Config.OfJson
import GroupedOptions.Proofs.Json.Grammar

/-!
# The fields of a record in JSON

A record is written as an object, its members in any order and members of other names among them,
or as an array of its fields in order. The main statement is that either way every field is found
with one of the values it may have, or left out where it may be.
-/
namespace GroupedOptions.Json

/-- A field of a record: which values it is written as, whether an object may leave it out, and
whether it may be missing at the end of an array. -/
structure FieldForm where
  name : String
  writes : Json → Prop
  mayOmit : Prop
  mayEnd : Prop

/-- What the field is found as. -/
def FieldForm.Finds (f : FieldForm) : Option Json → Prop
  | some v => f.writes v
  | none => f.mayOmit

/-- Every field of the record is found among the members. -/
def Finds (fields : List FieldForm) (members : List (String × Json)) : Prop :=
  ∀ f ∈ fields, ∃ v, member? f.name members = some v ∧ f.Finds v

/-- The fields that an object has, in order. -/
inductive Chooses : List FieldForm → List (String × Json) → Prop
  | nil : Chooses [] []
  | written {f fs v members} : f.writes v → Chooses fs members →
      Chooses (f :: fs) ((f.name, v) :: members)
  | omitted {f fs members} : f.mayOmit → Chooses fs members → Chooses (f :: fs) members

theorem Chooses.exists_field_of_mem {fields : List FieldForm} {members : List (String × Json)}
    (h : Chooses fields members) {m : String × Json} (hm : m ∈ members) :
    ∃ f ∈ fields, f.name = m.1 ∧ f.writes m.2 := by
  induction h with
  | nil => exact absurd hm List.not_mem_nil
  | @written f fs v members hwrites _ ih =>
    rcases List.mem_cons.mp hm with rfl | hm
    · exact ⟨f, List.mem_cons_self, rfl, hwrites⟩
    · obtain ⟨g, hg, hfound⟩ := ih hm
      exact ⟨g, List.mem_cons_of_mem f hg, hfound⟩
  | omitted _ _ ih =>
    obtain ⟨g, hg, hfound⟩ := ih hm
    exact ⟨g, List.mem_cons_of_mem _ hg, hfound⟩

theorem filter_name_eq_nil {name : String} {members : List (String × Json)}
    (h : ∀ m ∈ members, m.1 ≠ name) : members.filter (fun m => m.1 == name) = [] :=
  List.filter_eq_nil_iff.mpr fun m hm => by simpa using h m hm

/-- The members of a field's name are its value, if it is there. -/
theorem Chooses.exists_filter_eq {fields : List FieldForm} {members : List (String × Json)}
    (h : Chooses fields members) (hnodup : (fields.map (·.name)).Nodup) {f : FieldForm}
    (hf : f ∈ fields) : ∃ v : Option Json,
      members.filter (fun m => m.1 == f.name) = (v.map fun v => (f.name, v)).toList ∧
        f.Finds v := by
  have hothers {g : FieldForm} {fs : List FieldForm} {members : List (String × Json)}
      (hg : g.name ∉ fs.map (·.name)) (h : Chooses fs members) :
      members.filter (fun m => m.1 == g.name) = [] := by
    refine filter_name_eq_nil fun m hm hname => hg ?_
    obtain ⟨g', hg', hname', -⟩ := h.exists_field_of_mem hm
    exact List.mem_map.mpr ⟨g', hg', hname'.trans hname⟩
  induction h with
  | nil => exact absurd hf List.not_mem_nil
  | @written g fs v members hwrites hrest ih =>
    obtain ⟨hg, hnodup⟩ := List.nodup_cons.mp hnodup
    rcases List.mem_cons.mp hf with rfl | hf
    · exact ⟨some v, by simp [hothers hg hrest], hwrites⟩
    · have hne : g.name ≠ f.name := fun hname => hg (List.mem_map.mpr ⟨f, hf, hname.symm⟩)
      obtain ⟨v', hfilter, hfinds⟩ := ih hnodup hf
      exact ⟨v', by simp [hne, hfilter], hfinds⟩
  | @omitted g fs members hmay hrest ih =>
    obtain ⟨hg, hnodup⟩ := List.nodup_cons.mp hnodup
    rcases List.mem_cons.mp hf with rfl | hf
    · exact ⟨none, hothers hg hrest, hmay⟩
    · exact ih hnodup hf

/-- The members of an object for the record: its fields and members of other names, in any
order. -/
structure IsObjectOf (fields : List FieldForm) (others members : List (String × Json)) : Prop where
  exists_perm : ∃ chosen, Chooses fields chosen ∧ members.Perm (chosen ++ others)
  name_not_mem : ∀ m ∈ others, m.1 ∉ fields.map (·.name)

theorem IsObjectOf.finds {fields : List FieldForm} {others members : List (String × Json)}
    (h : IsObjectOf fields others members) (hnodup : (fields.map (·.name)).Nodup) :
    Finds fields members := by
  intro f hf
  obtain ⟨chosen, hchosen, hperm⟩ := h.exists_perm
  obtain ⟨v, hfilter, hfinds⟩ := hchosen.exists_filter_eq hnodup hf
  refine ⟨v, ?_, hfinds⟩
  have hothers : others.filter (fun m => m.1 == f.name) = [] :=
    filter_name_eq_nil fun m hm hname =>
      h.name_not_mem m hm (List.mem_map.mpr ⟨f, hf, hname.symm⟩)
  have hall : (members.filter fun m => m.1 == f.name).Perm (v.map fun v => (f.name, v)).toList := by
    simpa [hfilter, hothers] using hperm.filter fun m => m.1 == f.name
  cases v with
  | none =>
    have hnone : (members.filter fun m => m.1 == f.name) = [] := hall.eq_nil
    rw [member?, hnone]
  | some v =>
    have hone : (members.filter fun m => m.1 == f.name) = [(f.name, v)] := hall.eq_singleton
    rw [member?, hone]

/-- The items of an array for the record. -/
inductive IsArrayOf : List FieldForm → List Json → Prop
  | nil {fields} : (∀ f ∈ fields, f.mayEnd) → IsArrayOf fields []
  | cons {f fs v items} : f.writes v → IsArrayOf fs items → IsArrayOf (f :: fs) (v :: items)

theorem chooses_nil {fields : List FieldForm} (h : ∀ f ∈ fields, f.mayOmit) :
    Chooses fields [] := by
  induction fields with
  | nil => exact .nil
  | cons f fs ih =>
    exact .omitted (h f List.mem_cons_self) (ih fun g hg => h g (List.mem_cons_of_mem f hg))

/-- Named by their place, the items are members that leave out what is missing at the end. -/
theorem IsArrayOf.chooses {fields : List FieldForm} {items : List Json}
    (h : IsArrayOf fields items) (hmay : ∀ f ∈ fields, f.mayEnd → f.mayOmit) :
    Chooses fields ((fields.map (·.name)).zip items) := by
  induction h with
  | nil hend =>
    rw [List.zip_nil_right]
    exact chooses_nil fun f hf => hmay f hf (hend f hf)
  | @cons f fs v items hwrites _ ih =>
    exact .written hwrites (ih fun g hg => hmay g (List.mem_cons_of_mem f hg))

theorem IsArrayOf.finds {fields : List FieldForm} {items : List Json}
    (h : IsArrayOf fields items) (hmay : ∀ f ∈ fields, f.mayEnd → f.mayOmit)
    (hnodup : (fields.map (·.name)).Nodup) :
    Finds fields ((fields.map (·.name)).zip items) := by
  have hobject : IsObjectOf fields [] ((fields.map (·.name)).zip items) :=
    ⟨⟨_, h.chooses hmay, by rw [List.append_nil]⟩, nofun⟩
  exact hobject.finds hnodup

theorem IsArrayOf.length_le {fields : List FieldForm} {items : List Json}
    (h : IsArrayOf fields items) : items.length ≤ fields.length := by
  induction h with
  | nil => exact Nat.zero_le _
  | cons _ _ ih => exact Nat.succ_le_succ ih

/-- Fields that may not be missing at the end are there. -/
theorem IsArrayOf.le_length (before after : List FieldForm) {items : List Json}
    (h : IsArrayOf (before ++ after) items) (hbefore : ∀ f ∈ before, ¬ f.mayEnd) :
    before.length ≤ items.length := by
  induction before generalizing items with
  | nil => exact Nat.zero_le _
  | cons f before ih =>
    cases h with
    | nil hend => exact absurd (hend f List.mem_cons_self) (hbefore f List.mem_cons_self)
    | cons _ hrest =>
      exact Nat.succ_le_succ (ih hrest fun g hg => hbefore g (List.mem_cons_of_mem f hg))

theorem IsArrayOf.exists_field_of_mem {fields : List FieldForm} {items : List Json}
    (h : IsArrayOf fields items) {v : Json} (hv : v ∈ items) : ∃ f ∈ fields, f.writes v := by
  induction h with
  | nil => exact absurd hv List.not_mem_nil
  | @cons f fs _ _ hwrites _ ih =>
    rcases List.mem_cons.mp hv with rfl | hv
    · exact ⟨f, List.mem_cons_self, hwrites⟩
    · obtain ⟨g, hg, hfound⟩ := ih hv
      exact ⟨g, List.mem_cons_of_mem f hg, hfound⟩

/-- The object of members whose names are texts. -/
def ofMembers (members : List (String × Json)) : Json :=
  .object (members.map fun m => (some m.1, m.2))

theorem members?_ofMembers (members : List (String × Json)) :
    members? (ofMembers members) = some members := by
  simp only [members?, ofMembers, List.mapM_map]
  induction members with
  | nil => rfl
  | cons m members ih => simp [List.mapM_cons, ih]

theorem isPlain_ofMembers (members : List (String × Json)) :
    (ofMembers members).isPlain = members.all (·.2.isPlain) := by
  rw [ofMembers, isPlain]
  induction members with
  | nil => rfl
  | cons m members ih => simp [areMembersPlain, ih]

theorem isPlain_array (items : List Json) : (array items).isPlain = items.all (·.isPlain) := by
  rw [isPlain]
  induction items with
  | nil => rfl
  | cons v items ih => simp [areItemsPlain, ih]

theorem depth_ofMembers_le {members : List (String × Json)} {n : Nat}
    (h : ∀ m ∈ members, m.2.depth ≤ n) : (ofMembers members).depth ≤ n + 1 := by
  rw [ofMembers, depth]
  refine Nat.succ_le_succ ?_
  induction members with
  | nil => exact Nat.zero_le n
  | cons m members ih =>
    exact Nat.max_le.mpr
      ⟨h m List.mem_cons_self, ih fun m' hm => h m' (List.mem_cons_of_mem m hm)⟩

theorem depth_array_le {items : List Json} {n : Nat} (h : ∀ v ∈ items, v.depth ≤ n) :
    (array items).depth ≤ n + 1 := by
  rw [depth]
  refine Nat.succ_le_succ ?_
  induction items with
  | nil => exact Nat.zero_le n
  | cons v items ih =>
    exact Nat.max_le.mpr
      ⟨h v List.mem_cons_self, ih fun v' hv => h v' (List.mem_cons_of_mem v hv)⟩

end GroupedOptions.Json
