import GroupedOptions.Table
import Mathlib.Algebra.Order.Group.Int
import Mathlib.Data.List.Induction

/-!
# Keys of a table that is built up

A new key comes right after the greatest unreserved one in the table, whichever of them was asked
for by number and whichever was given out before. The counter behind it has 32 bits, and no key
comes after the greatest of its numbers. The main statement is that keys are new and in order
whenever they are given out, and that only a row under the greatest key makes the counter overflow.
-/
namespace GroupedOptions

namespace Key

def greatest : Key := ⟨Int32.maxValue⟩

theorem isReserved_iff {k : Key} : k.isReserved = true ↔ k.code.toInt < 0 := by
  simp [isReserved, Int32.lt_iff_toInt_lt]

theorem eq_iff_toInt_eq {k k' : Key} : k = k' ↔ k.code.toInt = k'.code.toInt := by
  obtain ⟨code⟩ := k
  obtain ⟨code'⟩ := k'
  simp [Int32.toInt_inj]

/-- Every key but the greatest has one after it. -/
theorem toInt_succ {k : Key} (h : k ≠ greatest) : (k.code + 1).toInt = k.code.toInt + 1 := by
  have hlow := k.code.le_toInt
  have hhigh := k.code.toInt_lt
  have hne : k.code.toInt ≠ 2 ^ 31 - 1 := by
    rw [← Int32.toInt_maxValue]
    exact fun heq => h (eq_iff_toInt_eq.mpr heq)
  have hone : (1 : Int32).toInt = 1 := rfl
  -- The sum is within the range of 32 bits, where it is not reduced.
  rw [Int32.toInt_add, hone]
  apply Int.bmod_eq_of_le <;> omega

end Key

/-- The key of a row that is not there for a field. -/
def Dest.key? {D : Type} : Dest D → Option Key
  | .key k => some k
  | .field _ _ => none

namespace Table

variable {D : Type} {t t' : Table D} {row : Row D}

theorem keyAfter?_eq_none_iff {next : Int32} {dest : Dest D} :
    keyAfter? next dest = none ↔ dest = .key .greatest := by
  cases dest with
  | field _ _ => simp [keyAfter?]
  | key k =>
    have hfree : Key.greatest.isReserved = false := by decide
    constructor
    · intro h
      simp only [keyAfter?] at h
      split at h
      next =>
        split at h
        next hcode => exact congrArg Dest.key (congrArg Key.mk hcode)
        next => cases h
      next => cases h
    · rintro ⟨⟩
      have hcode : Key.greatest.code = Int32.maxValue := rfl
      simp [keyAfter?, hfree, hcode]

/-- Where a key is put, the counter stays if the key is reserved, and else it stays after the key or
comes right after it. -/
theorem toInt_keyAfter? {k : Key} {next next' : Int32}
    (h : keyAfter? next (.key k : Dest D) = some next') :
    next'.toInt = if k.isReserved then next.toInt else max next.toInt (k.code.toInt + 1) := by
  have hne : k ≠ .greatest := by
    rintro rfl
    rw [keyAfter?_eq_none_iff.mpr rfl] at h
    cases h
  have hcode : k.code ≠ Int32.maxValue := fun hcode => hne (congrArg Key.mk hcode)
  simp only [keyAfter?, hcode, if_false, Bool.and_eq_true, Bool.not_eq_true', decide_eq_true_eq,
    Int32.le_iff_toInt_le] at h
  cases hk : k.isReserved with
  | true =>
    simp only [hk, Bool.true_eq_false, false_and, if_false, Option.some.injEq] at h
    simp [h]
  | false =>
    simp only [hk, true_and, Bool.false_eq_true, if_false] at h ⊢
    split at h
    next hle =>
      cases h
      rw [Key.toInt_succ hne]
      omega
    next hle =>
      cases h
      omega

theorem push_eq_none_iff : t.push row = none ↔ row.dest = .key .greatest := by
  simp [push, keyAfter?_eq_none_iff]

theorem exists_of_push (h : t.push row = some t') : ∃ next,
    keyAfter? t.nextKey row.dest = some next ∧ t' = ⟨t.rows ++ [row], next⟩ := by
  obtain ⟨next, hnext, rfl⟩ := Option.map_eq_some_iff.mp h
  exact ⟨next, hnext, rfl⟩

theorem toInt_nextKey_of_push {k : Key} (h : t.push row = some t') (hrow : row.dest = .key k) :
    t'.nextKey.toInt =
      if k.isReserved then t.nextKey.toInt else max t.nextKey.toInt (k.code.toInt + 1) := by
  obtain ⟨next, hnext, rfl⟩ := exists_of_push h
  rw [hrow] at hnext
  exact toInt_keyAfter? hnext

/-- To append a row without an unreserved key is to push it. -/
theorem push_eq_append (t : Table D) (h : ∀ k, row.dest = .key k → k.isReserved = true) :
    t.push row = some (t.append row) := by
  have hstays : keyAfter? t.nextKey row.dest = some t.nextKey := by
    cases hdest : row.dest with
    | key k => simp [keyAfter?, h k hdest]
    | field _ _ => rfl
  simp [push, append, hstays]

def keys (t : Table D) : List Key := t.rows.filterMap fun row => row.dest.key?

theorem keys_of_push (h : t.push row = some t') : t'.keys = t.keys ++ row.dest.key?.toList := by
  obtain ⟨next, _, rfl⟩ := exists_of_push h
  cases hdest : row.dest.key? <;> simp [keys, hdest]

/-- The counter is right after the greatest unreserved key in the table, and 0 if there is none. -/
structure IsAhead (t : Table D) : Prop where
  nonneg : 0 ≤ t.nextKey.toInt
  lt : ∀ k ∈ t.keys, k.isReserved = false → k.code.toInt < t.nextKey.toInt
  next : t.nextKey.toInt = 0 ∨ ∃ k ∈ t.keys, t.nextKey.toInt = k.code.toInt + 1

theorem isAhead_empty : (empty : Table D).IsAhead where
  nonneg := le_rfl
  lt := by simp [keys, empty]
  next := .inl rfl

theorem IsAhead.push (h : t.IsAhead) (hpush : t.push row = some t') : t'.IsAhead := by
  have hnonneg := h.nonneg
  have hkeys := keys_of_push hpush
  cases hdest : row.dest with
  | field field value =>
    have hsame : t' = t.append row := by
      rw [t.push_eq_append (by simp [hdest])] at hpush
      exact (Option.some.inj hpush).symm
    have hkeys : t'.keys = t.keys := by simp [hkeys, hdest, Dest.key?]
    have hnext : t'.nextKey = t.nextKey := by rw [hsame]; rfl
    exact ⟨hnext ▸ hnonneg, hkeys ▸ hnext ▸ h.lt, hkeys ▸ hnext ▸ h.next⟩
  | key key =>
    have hnext := toInt_nextKey_of_push hpush hdest
    have hmem {k : Key} : k ∈ t'.keys ↔ k ∈ t.keys ∨ k = key := by
      simp [hkeys, hdest, Dest.key?]
    have hle : t.nextKey.toInt ≤ t'.nextKey.toInt := by
      rw [hnext]
      split <;> omega
    refine ⟨hnonneg.trans hle, fun k hk hfree => ?_, ?_⟩
    · obtain hold | rfl := hmem.mp hk
      · exact (h.lt k hold hfree).trans_le hle
      · -- The new key, if it is unreserved, is what the counter has moved past.
        rw [hnext, hfree]
        simp
    · obtain hstays | hmoves : t'.nextKey.toInt = t.nextKey.toInt ∨
          t'.nextKey.toInt = key.code.toInt + 1 := by
        rw [hnext]
        split <;> omega
      · rw [hstays]
        exact h.next.imp_right fun ⟨k, hk, hlast⟩ => ⟨k, hmem.mpr (.inl hk), hlast⟩
      · exact .inr ⟨key, hmem.mpr (.inr rfl), hmoves⟩

theorem exists_push_of_addKey {templ : String} {key : Key} (h : t.addKey templ = some (key, t')) :
    key = ⟨t.nextKey⟩ ∧ t.push (.forKey templ key) = some t' := by
  obtain ⟨_, hpush, hpair⟩ := Option.map_eq_some_iff.mp h
  cases hpair
  exact ⟨rfl, hpush⟩

theorem addKey_eq_none_iff {templ : String} :
    t.addKey templ = none ↔ t.nextKey.toInt = 2 ^ 31 - 1 := by
  have hdest : (Row.forKey templ ⟨t.nextKey⟩ : Row D).dest = .key .greatest ↔
      (⟨t.nextKey⟩ : Key) = .greatest := by
    simp [Row.forKey]
  rw [addKey, Option.map_eq_none_iff, push_eq_none_iff, hdest, Key.eq_iff_toInt_eq,
    ← Int32.toInt_maxValue]
  rfl

/-- A new key of such a table is none of the reserved ones, and after the others there. -/
theorem IsAhead.addKey (h : t.IsAhead) {templ : String} {key : Key}
    (hadd : t.addKey templ = some (key, t')) : key.isReserved = false ∧
      ∀ k ∈ t.keys, k.isReserved = false → k.code < key.code := by
  obtain ⟨rfl, _⟩ := exists_push_of_addKey hadd
  constructor
  · rw [Bool.eq_false_iff, Ne, Key.isReserved_iff]
    exact not_lt.mpr h.nonneg
  · exact fun k hk hk' => Int32.lt_iff_toInt_lt.mpr (h.lt k hk hk')

end Table

/-- What may be added to a table. -/
inductive Edit (D : Type) where
  | key (templ : String)
  | keyFor (templ : String) (key : Key)
  | keep (templ : String)
  | discard (templ : String)
  | field (templ : String) (field : Field D)
  | value (templ : String) (field : Field D) (value : Int64)
  | toggle (templ : String) (field : Field D)
  | push (row : Row D)

namespace Table

variable {D : Type} {t t' : Table D} {e : Edit D} {key? : Option Key} {given : List Key}

/-- The new key if one was asked for, and the table after an addition. -/
def edit (t : Table D) : Edit D → Option (Option Key × Table D)
  | .key templ => (t.addKey templ).map fun (key, t) => (some key, t)
  | .keyFor templ key => (t.addKeyFor templ key).map fun t => (none, t)
  | .keep templ => some (none, t.addKeep templ)
  | .discard templ => some (none, t.addDiscard templ)
  | .field templ field => some (none, t.addField templ field)
  | .value templ field value => some (none, t.addValue templ field value)
  | .toggle templ field => some (none, t.addToggle templ field)
  | .push row => (t.push row).map fun t => (none, t)

/-- An addition to a table, beside the keys that were given out so far. -/
def extend (built : List Key × Table D) (e : Edit D) : Option (List Key × Table D) :=
  (built.2.edit e).map fun (key?, t) => (built.1 ++ key?.toList, t)

/-- The table after additions to one of literal rows, and the new keys in the order in which they
were given out, unless the counter overflows on the way. -/
def build (rows : List (Row D)) (edits : List (Edit D)) : Option (List Key × Table D) :=
  (ofList rows).bind fun t => edits.foldlM extend ([], t)

theorem exists_foldlM_push (h : t.edit e = some (key?, t')) :
    ∃ rows : List (Row D), rows.foldlM push t = some t' := by
  have happend {t : Table D} {row : Row D} (hrow : ∀ k, row.dest = .key k → k.isReserved = true) :
      [row].foldlM push t = some (t.append row) := by
    simp [t.push_eq_append hrow]
  cases e with
  | key templ =>
    obtain ⟨⟨key, _⟩, hadd, ⟨⟩⟩ := Option.map_eq_some_iff.mp h
    exact ⟨[.forKey templ key], by simpa using (exists_push_of_addKey hadd).2⟩
  | keyFor templ key =>
    obtain ⟨_, hpush, ⟨⟩⟩ := Option.map_eq_some_iff.mp h
    exact ⟨[.forKey templ key], by simpa [addKeyFor] using hpush⟩
  | push row =>
    obtain ⟨_, hpush, ⟨⟩⟩ := Option.map_eq_some_iff.mp h
    exact ⟨[row], by simpa using hpush⟩
  | keep _ | discard _ =>
    cases h
    exact ⟨_, happend (by rintro k ⟨⟩; decide)⟩
  | field _ _ | value _ _ _ =>
    cases h
    exact ⟨_, happend nofun⟩
  | toggle templ field =>
    cases h
    let on : Row D := .forValue (toggleName templ) field 1
    let off : Row D := .forValue ("no" ++ toggleName templ) field 0
    refine ⟨[on, off], ?_⟩
    have hon : t.push on = some (t.append on) := t.push_eq_append nofun
    have hoff : (t.append on).push off = some ((t.append on).append off) :=
      Table.push_eq_append _ nofun
    simp only [List.foldlM_cons, List.foldlM_nil, hon, hoff, bind, Option.bind]
    rfl

/-- A key that is given out is the number of the counter, and a row is there under it. -/
theorem exists_addKey_of_edit {key : Key} (h : t.edit e = some (some key, t')) :
    ∃ templ, t.addKey templ = some (key, t') := by
  cases e with
  | key templ =>
    obtain ⟨_, hadd, ⟨⟩⟩ := Option.map_eq_some_iff.mp h
    exact ⟨templ, hadd⟩
  | keyFor _ _ | push _ => obtain ⟨_, _, ⟨⟩⟩ := Option.map_eq_some_iff.mp h
  | keep _ | discard _ | field _ _ | value _ _ _ | toggle _ _ => cases h

theorem mem_keys_of_addKey {templ : String} {key : Key} (h : t.addKey templ = some (key, t')) :
    key ∈ t'.keys := by
  rw [keys_of_push (exists_push_of_addKey h).2]
  simp [Row.forKey, Dest.key?]

theorem keys_subset_of_foldlM {rows : List (Row D)} (h : rows.foldlM push t = some t') :
    t.keys ⊆ t'.keys := by
  induction rows generalizing t with
  | nil =>
    cases h
    exact List.Subset.refl _
  | cons row rows ih =>
    obtain ⟨t₁, hpush, hrest⟩ := Option.bind_eq_some_iff.mp h
    have hrow : t.keys ⊆ t₁.keys := by
      rw [keys_of_push hpush]
      exact List.subset_append_left _ _
    exact List.Subset.trans hrow (ih hrest)

theorem IsAhead.foldlM (h : t.IsAhead) {rows : List (Row D)}
    (hrows : rows.foldlM Table.push t = some t') : t'.IsAhead := by
  induction rows generalizing t with
  | nil =>
    cases hrows
    exact h
  | cons row rows ih =>
    obtain ⟨t₁, hpush, hrest⟩ := Option.bind_eq_some_iff.mp hrows
    exact ih (h.push hpush) hrest

/-- The keys that were given out are in the table, and the counter is after them. -/
structure GaveOut (given : List Key) (t : Table D) : Prop where
  isAhead : t.IsAhead
  subset : given ⊆ t.keys
  free : ∀ k ∈ given, k.isReserved = false

theorem GaveOut.edit (h : GaveOut given t) (he : t.edit e = some (key?, t')) :
    GaveOut (given ++ key?.toList) t' := by
  obtain ⟨rows, hrows⟩ := exists_foldlM_push he
  refine ⟨h.isAhead.foldlM hrows, List.append_subset.mpr ⟨?_, ?_⟩, ?_⟩
  · exact List.Subset.trans h.subset (keys_subset_of_foldlM hrows)
  · intro k hk
    cases Option.mem_toList.mp hk
    obtain ⟨_, hadd⟩ := exists_addKey_of_edit he
    exact mem_keys_of_addKey hadd
  · intro k hk
    obtain hk | hk := List.mem_append.mp hk
    · exact h.free k hk
    · cases Option.mem_toList.mp hk
      obtain ⟨_, hadd⟩ := exists_addKey_of_edit he
      exact (h.isAhead.addKey hadd).1

theorem GaveOut.foldlM {given' : List Key} {edits : List (Edit D)} (h : GaveOut given t)
    (hedits : edits.foldlM extend (given, t) = some (given', t')) : GaveOut given' t' := by
  induction edits generalizing given t with
  | nil =>
    cases hedits
    exact h
  | cons e edits ih =>
    obtain ⟨_, hstep, hrest⟩ := Option.bind_eq_some_iff.mp hedits
    obtain ⟨_, he, rfl⟩ := Option.map_eq_some_iff.mp hstep
    exact ih (h.edit he) hrest

theorem gaveOut_of_build {rows : List (Row D)} {edits : List (Edit D)}
    (h : build rows edits = some (given, t)) : GaveOut given t := by
  obtain ⟨t₀, hrows, hedits⟩ := Option.bind_eq_some_iff.mp h
  have hstart : GaveOut [] t₀ := ⟨isAhead_empty.foldlM hrows, by simp, by simp⟩
  exact hstart.foldlM hedits

/-- Whatever literal rows a table began with and whatever was added to it, a new key is none of the
reserved ones, of those in the table and of those given out before, which are all below it. A row
leaves the counter where it is or moves it right after its key. The counter overflows exactly for a
row under the greatest key, so a new key is refused exactly if the one before that is in the
table. -/
theorem addKey_of_build {rows : List (Row D)} {edits : List (Edit D)}
    (h : build rows edits = some (given, t)) (templ : String) :
    (∀ key t', t.addKey templ = some (key, t') →
        key.isReserved = false ∧ key ∉ t.keys ∧ ∀ k ∈ given, k.code < key.code) ∧
      (t.addKey templ = none ↔ ⟨2147483646⟩ ∈ t.keys) ∧
      ∀ row : Row D, (t.push row = none ↔ row.dest = .key .greatest) ∧
        ∀ t' k, t.push row = some t' → row.dest = .key k → t'.nextKey.toInt =
          if k.isReserved then t.nextKey.toInt else max t.nextKey.toInt (k.code.toInt + 1) := by
  have hgave := gaveOut_of_build h
  refine ⟨fun key t' hadd => ?_, ?_, fun row => ⟨push_eq_none_iff, ?_⟩⟩
  · obtain ⟨hfree, hlt⟩ := hgave.isAhead.addKey hadd
    refine ⟨hfree, fun hmem => ?_, fun k hk => ?_⟩
    · exact Int32.lt_irrefl (hlt _ hmem hfree)
    · exact hlt k (hgave.subset hk) (hgave.free k hk)
  · have hlast : Int32.toInt 2147483646 = 2147483646 := by decide
    rw [addKey_eq_none_iff]
    constructor
    · intro hnext
      obtain hzero | ⟨k, hk, hsucc⟩ := hgave.isAhead.next
      · omega
      · have heq : k = ⟨2147483646⟩ := Key.eq_iff_toInt_eq.mpr (by rw [hlast]; omega)
        rwa [← heq]
    · intro hmem
      have hlt := hgave.isAhead.lt _ hmem (by decide)
      have hhigh := t.nextKey.toInt_lt
      simp only [hlast] at hlt
      omega
  · exact fun t' k hpush hdest => toInt_nextKey_of_push hpush hdest

/-- Literal rows under 4 and a reserved key, and then new keys with others between them. -/
theorem addKey_of_build_literal :
    let field : Field Int64 := .of fun _ n => n
    let rows : List (Row Int64) := [.forKey "-v" ⟨4⟩, .forKey "-q" .discard]
    let edits : List (Edit Int64) := [.key "-x", .keyFor "--ex" ⟨5⟩, .keyFor "-h" ⟨-7⟩,
      .toggle "[no]atime" field, .push (.forKey "-n" ⟨9⟩), .keep "-k", .key "-y"]
    ∃ t t', build rows edits = some ([⟨5⟩, ⟨10⟩], t) ∧
      t.keys = [⟨4⟩, .discard, ⟨5⟩, ⟨5⟩, ⟨-7⟩, ⟨9⟩, .keep, ⟨10⟩] ∧
      t.addKey "-z" = some (⟨11⟩, t') ∧ Key.isReserved ⟨11⟩ = false ∧ ⟨11⟩ ∉ t.keys ∧
      ∀ k ∈ [(⟨5⟩ : Key), ⟨10⟩], k.code < 11 := by
  intro field rows edits
  obtain ⟨⟨given, t⟩, hbuild⟩ : ∃ built, build rows edits = some built := ⟨_, rfl⟩
  obtain ⟨hnew, _, _⟩ := addKey_of_build hbuild "-z"
  cases hbuild
  exact ⟨_, _, rfl, rfl, rfl, hnew _ _ rfl⟩

/-- After `-x` under the greatest key there is no table, and no key for `-y`. -/
theorem build_eq_none_of_greatest :
    build [] [.keyFor "-x" ⟨2147483647⟩, .key "-y"] = (none : Option (List Key × Table Int64)) := by
  decide

end Table

end GroupedOptions
