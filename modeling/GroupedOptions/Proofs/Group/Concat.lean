import GroupedOptions.Proofs.Group.RoundTrip

/-!
# Groups put together with a comma

A comma between two groups cuts where the first one ends, unless a backslash at that end takes it.
An octal escape that the end of the first group has broken off is not completed across the comma,
so backslashes are all that matters there. Whether one is left over can be seen on the characters
as well as on the octets.
-/
namespace GroupedOptions.Group

open Text

/-- Whether the last element is a mark that is left alone, when each mark from the left goes with
the element after it. -/
def endsUnpaired {α : Type} [DecidableEq α] (mark : α) : List α → Bool
  | [] => false
  | [x] => x = mark
  | x :: y :: rest => if x = mark then endsUnpaired mark rest else endsUnpaired mark (y :: rest)

section EndsUnpaired

variable {α : Type} [DecidableEq α] {mark x : α}

@[simp] theorem endsUnpaired_nil (mark : α) : endsUnpaired mark [] = false := rfl

@[simp] theorem endsUnpaired_mark (mark : α) : endsUnpaired mark [mark] = true := by
  simp [endsUnpaired]

@[simp] theorem endsUnpaired_mark_cons (mark y : α) (rest : List α) :
    endsUnpaired mark (mark :: y :: rest) = endsUnpaired mark rest := by
  simp [endsUnpaired]

theorem endsUnpaired_cons_of_ne (h : x ≠ mark) (rest : List α) :
    endsUnpaired mark (x :: rest) = endsUnpaired mark rest := by
  cases rest <;> simp [endsUnpaired, h]

theorem endsUnpaired_append_of_ne {xs : List α} (h : ∀ x ∈ xs, x ≠ mark) (rest : List α) :
    endsUnpaired mark (xs ++ rest) = endsUnpaired mark rest := by
  induction xs with
  | nil => rfl
  | cons x xs ih =>
    rw [List.cons_append, endsUnpaired_cons_of_ne (h x List.mem_cons_self)]
    exact ih fun y hy => h y (List.mem_cons_of_mem _ hy)

end EndsUnpaired

/-- The octets of a character after its first are none of a comma or a backslash. -/
theorem exists_utf8EncodeChar_eq_cons (c : Char) :
    ∃ x xs, String.utf8EncodeChar c = x :: xs ∧ ∀ y ∈ xs, IsPlain y := by
  by_cases hc : c = ','
  · exact ⟨commaOctet, [], by rw [hc, utf8EncodeChar_comma], by simp⟩
  by_cases hb : c = '\\'
  · exact ⟨backslashOctet, [], by rw [hb, utf8EncodeChar_backslash], by simp⟩
  cases henc : String.utf8EncodeChar c with
  | nil =>
    have hlen := String.length_utf8EncodeChar c
    have hpos := c.utf8Size_pos
    rw [henc, List.length_nil] at hlen
    omega
  | cons x xs =>
    refine ⟨x, xs, rfl, fun y hy => isPlain_of_mem_utf8EncodeChar hc hb ?_⟩
    rw [henc]
    exact List.mem_cons_of_mem _ hy

theorem ne_backslash_of_mem_utf8EncodeChar {c : Char} (hc : c ≠ '\\') {x : UInt8}
    (h : x ∈ String.utf8EncodeChar c) : x ≠ backslashOctet := by
  by_cases hcomma : c = ','
  · rw [hcomma, utf8EncodeChar_comma, List.mem_singleton] at h
    rw [h]
    decide
  · exact (isPlain_of_mem_utf8EncodeChar hcomma hc h).2

theorem endsUnpaired_toOctets : ∀ cs : List Char,
    endsUnpaired backslashOctet (toOctets cs) = endsUnpaired '\\' cs
  | [] => rfl
  | [c] => by
    by_cases hc : c = '\\'
    · simp [hc, utf8EncodeChar_backslash]
    · rw [endsUnpaired_cons_of_ne hc, toOctets_cons,
        endsUnpaired_append_of_ne fun x hx => ne_backslash_of_mem_utf8EncodeChar hc hx]
      rfl
  | c :: d :: cs => by
    by_cases hc : c = '\\'
    · obtain ⟨x, xs, henc, hxs⟩ := exists_utf8EncodeChar_eq_cons d
      rw [hc, endsUnpaired_mark_cons, ← endsUnpaired_toOctets cs]
      simp only [toOctets_cons, utf8EncodeChar_backslash, henc, List.cons_append,
        List.nil_append, endsUnpaired_mark_cons]
      exact endsUnpaired_append_of_ne (fun y hy => (hxs y hy).2) _
    · rw [endsUnpaired_cons_of_ne hc, toOctets_cons,
        endsUnpaired_append_of_ne fun x hx => ne_backslash_of_mem_utf8EncodeChar hc hx]
      exact endsUnpaired_toOctets (d :: cs)

/-- An octet that is no octal digit. -/
def IsNoDigit (x : UInt8) : Prop := ∀ a b, octal? a x b = none ∧ octal? a b x = none

theorem isNoDigit_comma : IsNoDigit commaOctet := by
  simp [IsNoDigit, octal?, commaOctet]

theorem isNoDigit_backslash : IsNoDigit backslashOctet := by
  simp [IsNoDigit, octal?, backslashOctet]

theorem ne_backslash_of_octal? {a b c value : UInt8} (h : octal? a b c = some value) :
    b ≠ backslashOctet ∧ c ≠ backslashOctet := by
  constructor
  · rintro rfl
    rw [(isNoDigit_backslash a c).1] at h
    cases h
  · rintro rfl
    rw [(isNoDigit_backslash a b).2] at h
    cases h

/-- The decoder is through with the octets before one that can go on with no escape of theirs. -/
theorem symbols_append_cons {x : UInt8} (hx : IsNoDigit x) (xs rest : List UInt8)
    (h : endsUnpaired backslashOctet xs = false) :
    symbols (xs ++ x :: rest) = symbols xs ++ symbols (x :: rest) := by
  -- The induction is on how the decoder cuts the octets, which is not one by one after a backslash.
  induction xs using symbols.induct with
  | case1 => simp
  | case2 xs ih =>
    have hcomma : commaOctet ≠ backslashOctet := by decide
    rw [endsUnpaired_cons_of_ne hcomma] at h
    simp [ih h]
  | case3 a b c xs value hoctal _ ih =>
    obtain ⟨hb, hc⟩ := ne_backslash_of_octal? hoctal
    rw [endsUnpaired_mark_cons, endsUnpaired_cons_of_ne hb, endsUnpaired_cons_of_ne hc] at h
    simp [symbols_octal hoctal, ih h]
  | case4 a b c xs hoctal _ ih =>
    rw [endsUnpaired_mark_cons] at h
    have hself : symbols (backslashOctet :: a :: b :: c :: xs) =
        .octet a :: symbols (b :: c :: xs) := by
      apply symbols_escaped
      rintro b' c' tail ⟨⟩
      exact hoctal
    have happend : symbols (backslashOctet :: a :: b :: c :: (xs ++ x :: rest)) =
        .octet a :: symbols (b :: c :: (xs ++ x :: rest)) := by
      apply symbols_escaped
      rintro b' c' tail ⟨⟩
      exact hoctal
    have hnext := ih h
    simp only [List.cons_append] at hnext ⊢
    rw [hself, happend, hnext, List.cons_append]
  | case5 a xs hshort _ ih =>
    rw [endsUnpaired_mark_cons] at h
    have hself : symbols (backslashOctet :: a :: xs) = .octet a :: symbols xs :=
      symbols_escaped fun b c tail heq => (hshort b c tail heq).elim
    have happend : symbols (backslashOctet :: a :: (xs ++ x :: rest)) =
        .octet a :: symbols (xs ++ x :: rest) := by
      apply symbols_escaped
      intro b c tail heq
      match xs, hshort with
      | [], _ =>
        cases heq
        exact (hx a c).1
      | [y], _ =>
        cases heq
        exact (hx a b).2
      | y :: z :: xs, hshort => exact (hshort y z xs rfl).elim
    rw [List.cons_append, List.cons_append, happend, hself, ih h, List.cons_append]
  | case6 _ => simp at h
  | case7 y xs hcomma hbackslash ih =>
    rw [endsUnpaired_cons_of_ne hbackslash] at h
    simp [symbols_plain hcomma hbackslash, ih h]

theorem symbols_append_comma (xs rest : List UInt8) (h : endsUnpaired backslashOctet xs = false) :
    symbols (xs ++ commaOctet :: rest) = symbols xs ++ .comma :: symbols rest := by
  rw [symbols_append_cons isNoDigit_comma xs rest h, symbols_comma]

/-- A group that ends in no backslash of its own keeps its fields when another follows. -/
theorem rawFields_append_comma {group : String} (h : endsUnpaired '\\' group.toList = false)
    (rest : String) : rawFields (group ++ "," ++ rest) = rawFields group ++ rawFields rest := by
  have hlist : toOctets (group ++ "," ++ rest).toList =
      toOctets group.toList ++ commaOctet :: toOctets rest.toList := by
    simp [utf8EncodeChar_comma]
  rw [← endsUnpaired_toOctets] at h
  rw [rawFields, hlist, symbols_append_comma _ _ h, cutFields_append_comma]
  rfl

end GroupedOptions.Group
