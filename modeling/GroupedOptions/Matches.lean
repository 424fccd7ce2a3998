import GroupedOptions.Value

/-!
# What a parse records

Values are recorded under names, one value for each name, and listed in the
order of the names. Positional arguments are recorded in the order in which
they came.
-/

namespace GroupedOptions

/-- Values under distinct names, in the order of the names. -/
structure NamedValues where
  entries : List (String × Value)
  sorted : entries.Pairwise fun a b => a.1 < b.1
  deriving DecidableEq

namespace NamedValues

def empty : NamedValues := ⟨[], .nil⟩

/-- Puts a value under `name`, in place of the one that was there. -/
def insertEntry (name : String) (v : Value) : List (String × Value) → List (String × Value)
  | [] => [(name, v)]
  | (n, w) :: rest =>
      if n < name then (n, w) :: insertEntry name v rest
      else if n = name then (name, v) :: rest
      else (name, v) :: (n, w) :: rest

theorem mem_insertEntry {name : String} {v : Value} {l : List (String × Value)}
    {e : String × Value} (h : e ∈ insertEntry name v l) : e = (name, v) ∨ e ∈ l := by
  induction l with
  | nil => simpa [insertEntry] using h
  | cons d l ih =>
    obtain ⟨n, w⟩ := d
    simp only [insertEntry] at h
    split at h
    · rcases List.mem_cons.mp h with rfl | h
      · simp
      · rcases ih h with h | h <;> simp [h]
    · split at h
      · rcases List.mem_cons.mp h with h | h <;> simp [h]
      · rcases List.mem_cons.mp h with h | h
        · simp [h]
        · exact Or.inr h

theorem pairwise_insertEntry (name : String) (v : Value) {l : List (String × Value)}
    (h : l.Pairwise fun a b => a.1 < b.1) :
    (insertEntry name v l).Pairwise fun a b => a.1 < b.1 := by
  induction l with
  | nil => simp [insertEntry]
  | cons d l ih =>
    obtain ⟨n, w⟩ := d
    rw [List.pairwise_cons] at h
    simp only [insertEntry]
    split
    next hlt =>
      refine List.pairwise_cons.mpr ⟨fun e he => ?_, ih h.2⟩
      rcases mem_insertEntry he with rfl | he
      · exact hlt
      · exact h.1 e he
    next hlt =>
      split
      next heq =>
        subst heq
        exact List.pairwise_cons.mpr ⟨h.1, h.2⟩
      next hne =>
        have hgt : name < n := by
          rcases Std.lt_trichotomy n name with hn | hn | hn
          · exact absurd hn hlt
          · exact absurd hn hne
          · exact hn
        refine List.pairwise_cons.mpr ⟨fun e he => ?_, List.pairwise_cons.mpr h⟩
        rcases List.mem_cons.mp he with rfl | he
        · exact hgt
        · exact String.lt_trans hgt (h.1 e he)

def insert (m : NamedValues) (name : String) (v : Value) : NamedValues :=
  ⟨insertEntry name v m.entries, pairwise_insertEntry name v m.sorted⟩

/-- The value under `name`. -/
def get? (m : NamedValues) (name : String) : Option Value := m.entries.lookup name

theorem lookup_cons (n : String) (w : Value) (l : List (String × Value)) (name : String) :
    ((n, w) :: l).lookup name = if name = n then some w else l.lookup name := by
  rw [List.lookup_cons]
  by_cases h : name = n
  · simp [h]
  · simp [h, beq_eq_false_iff_ne.mpr h]

theorem lookup_insertEntry (name : String) (v : Value) (l : List (String × Value))
    (name' : String) :
    (insertEntry name v l).lookup name' = if name' = name then some v else l.lookup name' := by
  induction l with
  | nil => simp [insertEntry, lookup_cons]
  | cons e l ih =>
    obtain ⟨n, w⟩ := e
    simp only [insertEntry]
    split
    next hlt =>
      have hne : name ≠ n := by
        rintro rfl
        exact String.lt_irrefl name hlt
      rw [lookup_cons, lookup_cons, ih]
      by_cases h : name' = name
      · simp [h, hne]
      · simp [h]
    next =>
      split
      next heq =>
        subst heq
        by_cases h : name' = n <;> simp [lookup_cons, h]
      next => rw [lookup_cons]

theorem get?_insert (m : NamedValues) (name : String) (v : Value) (name' : String) :
    (m.insert name v).get? name' = if name' = name then some v else m.get? name' :=
  lookup_insertEntry name v m.entries name'

end NamedValues

/-- Everything that a parse recorded. -/
structure Matches where
  values : NamedValues
  positionals : List String
  deriving DecidableEq

namespace Matches

def empty : Matches := ⟨.empty, []⟩

def get? (m : Matches) (name : String) : Option Value := m.values.get? name

/-- Records a value under a name. -/
def record (m : Matches) (name : String) (v : Value) : Matches :=
  { m with values := m.values.insert name v }

def addPositional (m : Matches) (arg : String) : Matches :=
  { m with positionals := m.positionals ++ [arg] }

@[simp] theorem get?_empty (name : String) : empty.get? name = none := rfl

theorem get?_record (m : Matches) (name : String) (v : Value) (name' : String) :
    (m.record name v).get? name' = if name' = name then some v else m.get? name' :=
  m.values.get?_insert name v name'

@[simp] theorem get?_addPositional (m : Matches) (arg name : String) :
    (m.addPositional arg).get? name = m.get? name := rfl

@[simp] theorem positionals_record (m : Matches) (name : String) (v : Value) :
    (m.record name v).positionals = m.positionals := rfl

@[simp] theorem positionals_addPositional (m : Matches) (arg : String) :
    (m.addPositional arg).positionals = m.positionals ++ [arg] := rfl

end Matches

end GroupedOptions
