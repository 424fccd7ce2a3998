import GroupedOptions.Proofs.Spelling
import Mathlib.Algebra.Ring.Parity
import Mathlib.Data.List.DropRight

/-!
# Text added to a group

Text is added to a group after a comma, as it stands. A backslash that is left alone at the end of
the group takes that comma into its field, so that the last field of the group and the first field
of the text become one. In every other case both keep the fields that they have.
-/
namespace GroupedOptions.Group

open Text

section EndsUnpaired

variable {α : Type} [DecidableEq α] {mark : α}

/-- A mark at the end is left alone unless the one before it is. -/
theorem endsUnpaired_concat : ∀ (xs : List α) (x : α),
    endsUnpaired mark (xs ++ [x]) = (decide (x = mark) && !endsUnpaired mark xs)
  | [], x => by simp [endsUnpaired]
  | [y], x => by by_cases hy : y = mark <;> simp [endsUnpaired, hy]
  | y :: z :: rest, x => by
    by_cases hy : y = mark
    · rw [hy, List.cons_append, List.cons_append, endsUnpaired_mark_cons, endsUnpaired_mark_cons]
      exact endsUnpaired_concat rest x
    · rw [List.cons_append, endsUnpaired_cons_of_ne hy, endsUnpaired_cons_of_ne hy]
      exact endsUnpaired_concat (z :: rest) x

theorem exists_of_endsUnpaired {xs : List α} (h : endsUnpaired mark xs = true) :
    ∃ init, xs = init ++ [mark] ∧ endsUnpaired mark init = false := by
  cases xs using List.reverseRecOn with
  | nil => simp at h
  | append_singleton init x =>
    rw [endsUnpaired_concat] at h
    obtain ⟨rfl, hinit⟩ : x = mark ∧ endsUnpaired mark init = false := by simpa using h
    exact ⟨init, rfl, hinit⟩

/-- One mark is left alone if there is an odd number of them at the end. -/
theorem endsUnpaired_iff_odd (xs : List α) :
    endsUnpaired mark xs = true ↔ Odd (xs.rtakeWhile (· = mark)).length := by
  induction xs using List.reverseRecOn with
  | nil => simp
  | append_singleton xs x ih =>
    rw [endsUnpaired_concat, List.rtakeWhile_concat]
    by_cases hx : x = mark
    · simp [hx, Nat.odd_add_one, ← ih]
    · simp [hx]

end EndsUnpaired

/-- The last field of the first list and the first field of the second are one in the third, with a
comma where the backslash was; all the others are there as they were. -/
def Fuse (raw raw' fused : List (List UInt8)) : Prop :=
  ∃ before last first after, raw = before ++ [last ++ [backslashOctet]] ∧ raw' = first :: after ∧
    fused = before ++ (last ++ commaOctet :: first) :: after

theorem exists_cutFields_append (xs : List Symbol) :
    ∃ before last, cutFields xs = before ++ [last] ∧
      ∀ ys first after, cutFields ys = first :: after →
        cutFields (xs ++ ys) = before ++ (last ++ first) :: after := by
  induction xs with
  | nil => exact ⟨[], [], rfl, fun ys first after hys => hys⟩
  | cons x xs ih =>
    obtain ⟨before, last, hxs, happend⟩ := ih
    cases x with
    | comma =>
      refine ⟨[] :: before, last, by simp [cutFields, hxs], fun ys first after hys => ?_⟩
      simp [cutFields, happend ys first after hys]
    | octet value =>
      cases before with
      | nil =>
        refine ⟨[], value :: last, by simp [cutFields, hxs], fun ys first after hys => ?_⟩
        simp [cutFields, happend ys first after hys]
      | cons field before =>
        refine ⟨(value :: field) :: before, last, by simp [cutFields, hxs],
          fun ys first after hys => ?_⟩
        simp [cutFields, happend ys first after hys]

/-- The backslash at the end takes the comma, and the text after it is read as by itself. -/
theorem rawFields_fuse {group : String} (h : endsUnpaired '\\' group.toList = true)
    (text : String) :
    Fuse (rawFields group) (rawFields text) (rawFields (group ++ "," ++ text)) := by
  obtain ⟨init, hgroup, hinit⟩ := exists_of_endsUnpaired h
  rw [← endsUnpaired_toOctets] at hinit
  obtain ⟨before, last, hbefore, happend⟩ := exists_cutFields_append (symbols (toOctets init))
  obtain ⟨first, after, hfirst⟩ :=
    List.exists_cons_of_ne_nil (cutFields_ne_nil (symbols (toOctets text.toList)))
  have halone : symbols (toOctets group.toList) =
      symbols (toOctets init) ++ [.octet backslashOctet] := by
    simp [hgroup, utf8EncodeChar_backslash, symbols_append_cons isNoDigit_backslash _ _ hinit]
  have htogether : symbols (toOctets (group ++ "," ++ text).toList) =
      symbols (toOctets init) ++ .octet commaOctet :: symbols (toOctets text.toList) := by
    simp [hgroup, utf8EncodeChar_backslash, utf8EncodeChar_comma,
      symbols_append_cons isNoDigit_backslash _ _ hinit, symbols_backslash_cons]
  refine ⟨before, last, first, after, ?_, hfirst, ?_⟩
  · rw [rawFields, halone, happend _ [backslashOctet] [] rfl]
  · rw [rawFields, htogether, happend _ (commaOctet :: first) after (by simp [cutFields, hfirst])]

theorem Fuse.length_eq {raw raw' fused : List (List UInt8)} (h : Fuse raw raw' fused) :
    fused.length + 1 = raw.length + raw'.length := by
  obtain ⟨before, last, first, after, rfl, rfl, rfl⟩ := h
  simp only [List.length_append, List.length_cons, List.length_nil]
  omega

theorem length_fields (group : String) : (fields group).length = (rawFields group).length :=
  List.length_map ..

/-- Text that is added to a group leaves the fields of both as they are exactly if no backslash is
left alone at the end of the group, that is, unless the number of backslashes there is odd. If one
is, there is one field less, since the two fields at the comma are one. -/
theorem fields_add (group text : String) :
    (List.Forall₂ (Agrees (NamesPart group text)) (fields (add (some group) text))
        (fields group ++ fields text) ↔ endsUnpaired '\\' group.toList = false) ∧
      (endsUnpaired '\\' group.toList = true ↔
        Odd (group.toList.rtakeWhile (· = '\\')).length) ∧
      (endsUnpaired '\\' group.toList = true →
        (fields (add (some group) text)).length + 1 = (fields group).length + (fields text).length ∧
        Fuse (rawFields group) (rawFields text) (rawFields (add (some group) text))) := by
  have hfuse : endsUnpaired '\\' group.toList = true →
      (fields (add (some group) text)).length + 1 = (fields group).length + (fields text).length ∧
      Fuse (rawFields group) (rawFields text) (rawFields (add (some group) text)) := by
    intro h
    have hraw := rawFields_fuse h text
    rw [length_fields, length_fields, length_fields]
    exact ⟨hraw.length_eq, hraw⟩
  refine ⟨⟨fun hagrees => ?_, fun h => forall₂_agrees_fields h text⟩, endsUnpaired_iff_odd _, hfuse⟩
  by_contra h
  have hlength := hagrees.length_eq
  rw [List.length_append, ← (hfuse (by simpa using h)).1] at hlength
  omega

end GroupedOptions.Group
