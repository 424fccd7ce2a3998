import Mathlib
import GroupedOptions.OptionSet
import GroupedOptions.Proofs.Table.Keys
import GroupedOptions.Proofs.Template.Value

/-!
# What a configuration compiles to

Every declaration stands for rows of its own, in the order of the declarations, and a flag is
known to the callback under a key. Such a key is none of those with a meaning of their own, and
no two flags have the same. There is a key for each of fewer than `2 ^ 31` flags.
-/
namespace GroupedOptions

namespace OptionDecl

/-- The rows that a declaration stands for; a flag stands for one with the given key. -/
def rows (d : OptionDecl) (key : Key) : List (Row Matches) :=
  let field := Matches.field (d.name?.getD "")
  match d with
  | flag t _ _ => [⟨t, .key key⟩]
  | value t _ => [⟨t, .field field 0⟩]
  | set t _ v => [⟨t, .field field v⟩]
  | toggle t _ =>
      let name := Table.toggleName t.text
      [⟨⟨name⟩, .field field 1⟩, ⟨⟨"no" ++ name⟩, .field field 0⟩]
  | keep t => [⟨t, .key .keep⟩]
  | discard t => [⟨t, .key .discard⟩]

def flag? (d : OptionDecl) (key : Key) : Option (Key × Flag) :=
  match d with
  | flag _ _ policy => some (key, ⟨d.name?.getD "", policy⟩)
  | _ => none

end OptionDecl

namespace OptionSet

/-- The rows and flags of a set are those of declarations, each with its key. -/
structure Consists (s : OptionSet) (entries : List (OptionDecl × Key)) : Prop where
  rows : s.table.rows = entries.flatMap fun e => e.1.rows e.2
  flags : s.flags = entries.filterMap fun e => e.1.flag? e.2

variable {s s' : OptionSet} {d : OptionDecl} {decls : List OptionDecl}
  {entries : List (OptionDecl × Key)}

/-- A declaration adds its rows, and a flag is given the next key. -/
theorem eq_append_of_declare (h : s.declare d = some s') :
    s'.table.rows = s.table.rows ++ d.rows ⟨s.table.nextKey⟩ ∧
      s'.flags = s.flags ++ (d.flag? ⟨s.table.nextKey⟩).toList := by
  cases d with
  | flag t name policy =>
    obtain ⟨⟨key, table⟩, hadd, rfl⟩ := Option.map_eq_some_iff.mp h
    obtain ⟨rfl, hpush⟩ := Table.exists_push_of_addKey hadd
    obtain ⟨next, _, rfl⟩ := Table.exists_of_push hpush
    exact ⟨rfl, rfl⟩
  | value _ _ | set _ _ _ | toggle _ _ | keep _ | discard _ =>
    cases h
    simp [OptionDecl.rows, OptionDecl.flag?, Table.addField, Table.addValue, Table.addToggle,
      Table.addKeep, Table.addDiscard, Table.append, Row.forKey, Row.forField, Row.forValue]

theorem Consists.declare (h : s.Consists entries) (hdeclare : s.declare d = some s') :
    s'.Consists (entries ++ [(d, ⟨s.table.nextKey⟩)]) := by
  obtain ⟨hrows, hflags⟩ := eq_append_of_declare hdeclare
  constructor
  · simp [hrows, h.rows]
  · rw [hflags, h.flags, List.filterMap_append]
    cases hflag : d.flag? ⟨s.table.nextKey⟩ <;> simp [hflag]

theorem policies_of_declare (h : s.declare d = some s') :
    s'.positional = s.positional ∧ s'.unmatched = s.unmatched := by
  cases d with
  | flag t name policy =>
    obtain ⟨_, _, rfl⟩ := Option.map_eq_some_iff.mp h
    exact ⟨rfl, rfl⟩
  | value _ _ | set _ _ _ | toggle _ _ | keep _ | discard _ =>
    cases h
    exact ⟨rfl, rfl⟩

end OptionSet

namespace Key

/-- The key of a flag that comes after `n` others. -/
def nth (n : ℕ) : Key := ⟨.ofNat n⟩

theorem toInt_nth {n : ℕ} (h : n < 2 ^ 31) : (nth n).code.toInt = n :=
  Int32.toInt_ofNat_of_lt h

theorem nth_inj {m n : ℕ} (hm : m < 2 ^ 31) (hn : n < 2 ^ 31) (h : nth m = nth n) : m = n := by
  have hcode := congrArg (fun k : Key => k.code.toInt) h
  simp only [toInt_nth hm, toInt_nth hn] at hcode
  omega

theorem isReserved_nth {n : ℕ} (h : n < 2 ^ 31) : (nth n).isReserved = false := by
  rw [Bool.eq_false_iff, Ne, isReserved_iff, toInt_nth h]
  omega

/-- A key without a meaning of its own. -/
def IsFree (k : Key) : Prop := k ≠ .unmatched ∧ k ≠ .positional ∧ k ≠ .keep ∧ k ≠ .discard

/-- A token under such a key does not pass by the callback. -/
theorem IsFree.not_discard_or_keep {k : Key} (h : k.IsFree) : ¬(k = .discard ∨ k = .keep) := by
  obtain ⟨_, _, hkeep, hdiscard⟩ := h
  simp [hkeep, hdiscard]

theorem isFree_of_isReserved {k : Key} (h : k.isReserved = false) : k.IsFree := by
  refine ⟨?_, ?_, ?_, ?_⟩ <;>
  · rintro rfl
    revert h
    decide

end Key

namespace OptionSet

variable {s s' : OptionSet} {d : OptionDecl} {decls : List OptionDecl}
  {entries : List (OptionDecl × Key)} {key : Key} {flag : Flag}

/-- The flags have their keys in order, and the next key is for the next flag. -/
structure HasKeys (s : OptionSet) : Prop where
  next : s.table.nextKey.toInt = s.flags.length
  keys : s.flags.map Prod.fst = (List.range s.flags.length).map Key.nth

/-- The counter has not overflowed, so there are no more flags than it can tell apart. -/
theorem HasKeys.length_lt (h : s.HasKeys) : s.flags.length < 2 ^ 31 := by
  have hnext := h.next
  have hhigh := s.table.nextKey.toInt_lt
  omega

theorem HasKeys.nextKey_eq (h : s.HasKeys) :
    (⟨s.table.nextKey⟩ : Key) = Key.nth s.flags.length := by
  rw [Key.eq_iff_toInt_eq, Key.toInt_nth h.length_lt]
  exact h.next

theorem HasKeys.declare (h : s.HasKeys) (hdeclare : s.declare d = some s') : s'.HasKeys := by
  cases d with
  | flag t name policy =>
    obtain ⟨⟨key, table⟩, hadd, rfl⟩ := Option.map_eq_some_iff.mp hdeclare
    -- The row is pushed under the next key, and the counter comes right after it.
    obtain ⟨hkey, hpush⟩ := Table.exists_push_of_addKey hadd
    rw [h.nextKey_eq] at hkey
    subst hkey
    have hnext := Table.toInt_nextKey_of_push hpush rfl
    rw [Key.isReserved_nth h.length_lt, Key.toInt_nth h.length_lt, h.next] at hnext
    constructor
    · simpa using hnext
    · simp [h.keys, List.range_succ]
  | value _ _ | set _ _ _ | toggle _ _ | keep _ | discard _ =>
    cases hdeclare
    exact ⟨h.next, h.keys⟩

/-- There is a key for a flag as long as the next one is not the greatest. -/
theorem HasKeys.exists_declare (h : s.HasKeys) (hlength : s.flags.length + 1 < 2 ^ 31)
    (d : OptionDecl) : ∃ s', s.declare d = some s' := by
  cases d with
  | flag t name policy =>
    cases hadd : s.table.addKey t.text with
    | none =>
      have hlast := Table.addKey_eq_none_iff.mp hadd
      rw [h.next] at hlast
      omega
    | some added => exact ⟨_, by simp only [OptionSet.declare, hadd]; rfl⟩
  | value _ _ | set _ _ _ | toggle _ _ | keep _ | discard _ => exact ⟨_, rfl⟩

theorem length_flags_of_declare (h : s.declare d = some s') :
    s'.flags.length ≤ s.flags.length + 1 := by
  rw [(eq_append_of_declare h).2, List.length_append]
  cases d.flag? ⟨s.table.nextKey⟩ <;> simp

theorem HasKeys.exists_foldlM_declare (h : s.HasKeys)
    (hlength : s.flags.length + decls.length < 2 ^ 31) :
    ∃ s', decls.foldlM OptionSet.declare s = some s' := by
  induction decls generalizing s with
  | nil => exact ⟨s, rfl⟩
  | cons d decls ih =>
    rw [List.length_cons] at hlength
    obtain ⟨s₁, hdeclare⟩ := h.exists_declare (by omega) d
    have hle := length_flags_of_declare hdeclare
    obtain ⟨s', hrest⟩ := ih (h.declare hdeclare) (by omega)
    exact ⟨s', by rw [List.foldlM_cons, hdeclare]; exact hrest⟩

theorem exists_consists_of_foldlM (hconsists : s.Consists entries) (hkeys : s.HasKeys)
    (h : decls.foldlM OptionSet.declare s = some s') :
    ∃ added, added.map Prod.fst = decls ∧ s'.Consists (entries ++ added) ∧ s'.HasKeys ∧
      s'.positional = s.positional ∧ s'.unmatched = s.unmatched := by
  induction decls generalizing s entries with
  | nil =>
    cases h
    exact ⟨[], rfl, by rwa [List.append_nil], hkeys, rfl, rfl⟩
  | cons d decls ih =>
    obtain ⟨s₁, hdeclare, hrest⟩ := Option.bind_eq_some_iff.mp h
    obtain ⟨added, rfl, hconsists', hkeys', hpositional, hunmatched⟩ :=
      ih (hconsists.declare hdeclare) (hkeys.declare hdeclare) hrest
    obtain ⟨hpositional', hunmatched'⟩ := policies_of_declare hdeclare
    exact ⟨(d, ⟨s.table.nextKey⟩) :: added, rfl, by simpa using hconsists', hkeys',
      hpositional.trans hpositional', hunmatched.trans hunmatched'⟩

theorem HasKeys.exists_nth (h : s.HasKeys) (hmem : (key, flag) ∈ s.flags) :
    ∃ n < s.flags.length, Key.nth n = key := by
  have hkey : key ∈ s.flags.map Prod.fst := List.mem_map_of_mem hmem
  rw [h.keys] at hkey
  simpa only [List.mem_map, List.mem_range] using hkey

theorem HasKeys.isReserved (h : s.HasKeys) (hmem : (key, flag) ∈ s.flags) :
    key.isReserved = false := by
  obtain ⟨n, hn, rfl⟩ := h.exists_nth hmem
  exact Key.isReserved_nth (hn.trans h.length_lt)

theorem HasKeys.isFree (h : s.HasKeys) (hmem : (key, flag) ∈ s.flags) : key.IsFree :=
  Key.isFree_of_isReserved (h.isReserved hmem)

theorem HasKeys.nodup (h : s.HasKeys) : (s.flags.map Prod.fst).Nodup := by
  rw [h.keys]
  refine List.Nodup.map_on ?_ List.nodup_range
  intro m hm n hn heq
  rw [List.mem_range] at hm hn
  exact Key.nth_inj (hm.trans h.length_lt) (hn.trans h.length_lt) heq

theorem lookup_eq_some_of_mem (hnodup : (s.flags.map Prod.fst).Nodup)
    (h : (key, flag) ∈ s.flags) : s.flags.lookup key = some flag := by
  obtain ⟨before, after, hflags⟩ := List.append_of_mem h
  refine List.lookup_eq_some_iff.mpr ⟨before, after, hflags, fun e he => ?_⟩
  rw [hflags, List.map_append, List.nodup_append] at hnodup
  have hne := hnodup.2.2 e.1 (List.mem_map_of_mem he) key (by simp)
  simpa using hne.symm

theorem HasKeys.lookup_of_mem (h : s.HasKeys) (hmem : (key, flag) ∈ s.flags) :
    key.IsFree ∧ s.flags.lookup key = some flag :=
  ⟨h.isFree hmem, lookup_eq_some_of_mem h.nodup hmem⟩

theorem mem_flags_of_lookup (h : s.flags.lookup key = some flag) : (key, flag) ∈ s.flags := by
  obtain ⟨before, after, hflags, _⟩ := List.lookup_eq_some_iff.mp h
  simp [hflags]

theorem ofConfig_consists (c : Config) :
    (OptionSet.ofConfig c).Consists [] ∧ (OptionSet.ofConfig c).HasKeys :=
  ⟨⟨rfl, rfl⟩, ⟨rfl, rfl⟩⟩

end OptionSet

namespace Config

variable {c : Config} {s : OptionSet}

theorem compile_eq_ok_iff : c.compile = .ok s ↔ c.validate = .ok () ∧
    c.options.foldlM OptionSet.declare (OptionSet.ofConfig c) = some s := by
  unfold compile
  split
  next e he => simp [he]
  next he =>
    cases c.options.foldlM OptionSet.declare (OptionSet.ofConfig c) <;> simp [he]

/-- What the declarations of a configuration make, where there are keys for all flags. -/
def declared (c : Config) : OptionSet :=
  (c.options.foldlM OptionSet.declare (OptionSet.ofConfig c)).getD (OptionSet.ofConfig c)

/-- A compiled set has the rows and flags of the declarations, in their order. -/
theorem exists_consists (h : c.compile = .ok s) :
    ∃ entries, entries.map Prod.fst = c.options ∧ s.Consists entries ∧ s.HasKeys := by
  obtain ⟨hconsists, hkeys⟩ := OptionSet.ofConfig_consists c
  obtain ⟨entries, hentries, hconsists, hkeys, _, _⟩ :=
    OptionSet.exists_consists_of_foldlM hconsists hkeys (compile_eq_ok_iff.mp h).2
  exact ⟨entries, hentries, hconsists, hkeys⟩

theorem policies_of_compile (h : c.compile = .ok s) :
    s.positional = c.positional ∧ s.unmatched = c.unmatched := by
  obtain ⟨hconsists, hkeys⟩ := OptionSet.ofConfig_consists c
  obtain ⟨_, _, _, _, hpolicies⟩ :=
    OptionSet.exists_consists_of_foldlM hconsists hkeys (compile_eq_ok_iff.mp h).2
  exact hpolicies

/-- A row stands in the table for a declaration, and a flag is known under the key of its row. -/
theorem exists_decl_of_mem_rows (h : c.compile = .ok s) {row : Row Matches}
    (hrow : row ∈ s.table.rows) :
    ∃ d ∈ c.options, ∃ key, row ∈ d.rows key ∧ ∀ e, d.flag? key = some e → e ∈ s.flags := by
  obtain ⟨entries, hentries, hconsists, _⟩ := exists_consists h
  rw [hconsists.rows] at hrow
  obtain ⟨⟨d, key⟩, hmem, hrow⟩ := List.mem_flatMap.mp hrow
  have hd : d ∈ c.options := by
    rw [← hentries]
    exact List.mem_map_of_mem hmem
  refine ⟨d, hd, key, hrow, fun e he => ?_⟩
  rw [hconsists.flags]
  exact List.mem_filterMap.mpr ⟨(d, key), hmem, he⟩

theorem exists_rows_subset (h : c.compile = .ok s) {d : OptionDecl} (hd : d ∈ c.options) :
    ∃ key, d.rows key ⊆ s.table.rows := by
  obtain ⟨entries, hentries, hconsists, _⟩ := exists_consists h
  rw [← hentries] at hd
  obtain ⟨⟨d, key⟩, hmem, rfl⟩ := List.mem_map.mp hd
  refine ⟨key, fun row hrow => ?_⟩
  rw [hconsists.rows]
  exact List.mem_flatMap.mpr ⟨(d, key), hmem, hrow⟩

theorem exists_decl_of_mem_flags (h : c.compile = .ok s) {key : Key} {flag : Flag}
    (hflag : (key, flag) ∈ s.flags) :
    key.IsFree ∧ ∃ t given, .flag t given flag.policy ∈ c.options ∧
      (OptionDecl.flag t given flag.policy).name? = some flag.name := by
  obtain ⟨entries, hentries, hconsists, hkeys⟩ := exists_consists h
  refine ⟨hkeys.isFree hflag, ?_⟩
  rw [hconsists.flags] at hflag
  obtain ⟨⟨d, key'⟩, hmem, hd⟩ := List.mem_filterMap.mp hflag
  have hoption : d ∈ c.options := by
    rw [← hentries]
    exact List.mem_map_of_mem hmem
  cases d with
  | flag t given policy =>
    cases hd
    exact ⟨t, given, hoption, rfl⟩
  | value _ _ | set _ _ _ | toggle _ _ | keep _ | discard _ => cases hd

/-- No two flags share a key, so the key leads back to the flag. -/
theorem lookup_of_mem_flags (h : c.compile = .ok s) {key : Key} {flag : Flag}
    (hmem : (key, flag) ∈ s.flags) : key.IsFree ∧ s.flags.lookup key = some flag := by
  obtain ⟨_, _, _, hkeys⟩ := exists_consists h
  exact hkeys.lookup_of_mem hmem

/-- A declaration without a fault, wherever it stands. -/
theorem fault?_eq_none_of_compile (h : c.compile = .ok s) {d : OptionDecl} (hd : d ∈ c.options) :
    ∃ index, d.fault? index = none := by
  obtain ⟨hvalid, _⟩ := compile_eq_ok_iff.mp h
  unfold validate at hvalid
  split at hvalid
  · cases hvalid
  next hfind =>
    rw [List.findSome?_eq_none_iff] at hfind
    obtain ⟨index, hlt, hget⟩ := List.mem_iff_getElem.mp hd
    have hmem : (d, index) ∈ c.options.zipIdx := by
      rw [List.mk_mem_zipIdx_iff_getElem?, List.getElem?_eq_getElem hlt, hget]
    exact ⟨index, hfind _ hmem⟩

end Config

namespace OptionDecl

variable {index : ℕ} {t : Template} {name : Option String}

theorem eq_none_of_ite_some {c : Prop} [Decidable c] {e : ConfigError} {rest : Option ConfigError}
    (h : (if c then some e else rest) = none) : rest = none := by
  split at h
  · cases h
  · exact h

/-- The check of a value, past those that are the same for all declarations. -/
theorem conversion?_of_fault?_eq_none (h : (value t name).fault? index = none) :
    (conversion? t).isSome := by
  have hkind := eq_none_of_ite_some (eq_none_of_ite_some (eq_none_of_ite_some h))
  simp only at hkind
  cases hd : directive? t with
  | none => simp [hd] at hkind
  | some directive =>
    cases hc : Conversion.parse? directive with
    | none => simp [hd, hc] at hkind
    | some c => simp [conversion?, hd, hc]

theorem directive?_of_fault?_eq_none {v : Int64} (h : (set t name v).fault? index = none) :
    directive? t = none := by
  have hkind := eq_none_of_ite_some (eq_none_of_ite_some (eq_none_of_ite_some h))
  simpa using hkind

theorem policy_ne_error_of_fault?_eq_none {policy : Policy}
    (h : (flag t name policy).fault? index = none) : policy ≠ .error := by
  have hkind := eq_none_of_ite_some (eq_none_of_ite_some (eq_none_of_ite_some h))
  simpa using hkind

/-- A valid toggle has the mark before a name without separator. -/
theorem exists_name_of_fault?_eq_none (h : (toggle t name).fault? index = none) :
    ∃ rest, Table.afterNegation? t.text.toList = some rest ∧
      Table.toggleName t.text = String.ofList rest ∧
      Template.parts? ⟨String.ofList rest⟩ = none := by
  have hkind := eq_none_of_ite_some (eq_none_of_ite_some (eq_none_of_ite_some h))
  have htoggle : isToggle t = true := by simpa using hkind
  unfold isToggle at htoggle
  split at htoggle
  · cases htoggle
  next rest hrest =>
    refine ⟨rest, hrest, by simp [Table.toggleName, hrest], ?_⟩
    simpa [Template.separator?] using (Bool.and_eq_true_iff.mp htoggle).2

theorem text_of_fault?_eq_none (h : (toggle t name).fault? index = none) :
    t.text = "[no]" ++ Table.toggleName t.text := by
  obtain ⟨rest, hrest, hname, _⟩ := exists_name_of_fault?_eq_none h
  apply String.toList_injective
  rw [hname]
  unfold Table.afterNegation? at hrest
  split at hrest
  next rest htext =>
    cases hrest
    simp [htext]
  next => cases hrest

/-- Neither name of a toggle has a separator. -/
theorem parts?_of_fault?_eq_none (h : (toggle t name).fault? index = none) :
    Template.parts? ⟨Table.toggleName t.text⟩ = none ∧
      Template.parts? ⟨"no" ++ Table.toggleName t.text⟩ = none := by
  obtain ⟨rest, _, hname, hparts⟩ := exists_name_of_fault?_eq_none h
  have hno : "no" ++ Table.toggleName t.text = String.ofList ('n' :: 'o' :: rest) := by
    apply String.toList_injective
    simp [hname]
  rw [hno, hname]
  refine ⟨hparts, ?_⟩
  apply Template.parts?_cons_eq_none (by decide) (by decide)
  exact Template.parts?_cons_eq_none (by decide) (by decide) hparts

/-- The row of a valid declaration passes by the callback, or it is about the name of the
declaration: as that of a flag, as one that stores its fixed value for want of a directive, or as
that of a value, which stores what a conversion yields. -/
theorem rows_cases {d : OptionDecl} (h : d.fault? index = none) {key : Key} {row : Row Matches}
    (hrow : row ∈ d.rows key) :
    (∃ k, row.dest = .key k ∧ (k = .keep ∨ k = .discard)) ∨
      ∃ name, d.name? = some name ∧
        ((∃ policy, row.dest = .key key ∧ d.flag? key = some (key, ⟨name, policy⟩)) ∨
          (∃ fixed, row.dest = .field (Matches.field name) fixed ∧ directive? row.templ = none) ∨
          ∃ given conversion, d = .value row.templ given ∧
            row.dest = .field (Matches.field name) 0 ∧
            conversion? row.templ = some conversion) := by
  cases d with
  | keep t =>
    rw [List.mem_singleton.mp hrow]
    exact .inl ⟨.keep, rfl, .inl rfl⟩
  | discard t =>
    rw [List.mem_singleton.mp hrow]
    exact .inl ⟨.discard, rfl, .inr rfl⟩
  | flag t given policy =>
    rw [List.mem_singleton.mp hrow]
    exact .inr ⟨_, rfl, .inl ⟨policy, rfl, rfl⟩⟩
  | set t given v =>
    rw [List.mem_singleton.mp hrow]
    exact .inr ⟨_, rfl, .inr (.inl ⟨v, rfl, directive?_of_fault?_eq_none h⟩)⟩
  | toggle t given =>
    obtain ⟨hon, hoff⟩ := parts?_of_fault?_eq_none h
    rcases List.mem_pair.mp hrow with rfl | rfl
    · exact .inr ⟨_, rfl, .inr (.inl ⟨1, rfl, directive?_eq_none_of_parts? hon⟩)⟩
    · exact .inr ⟨_, rfl, .inr (.inl ⟨0, rfl, directive?_eq_none_of_parts? hoff⟩)⟩
  | value t given =>
    obtain ⟨conversion, hconversion⟩ :=
      Option.isSome_iff_exists.mp (conversion?_of_fault?_eq_none h)
    rw [List.mem_singleton.mp hrow]
    exact .inr ⟨_, rfl, .inr (.inr ⟨given, conversion, rfl, rfl, hconversion⟩)⟩

end OptionDecl

end GroupedOptions
