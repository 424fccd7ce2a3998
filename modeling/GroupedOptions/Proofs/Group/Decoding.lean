import GroupedOptions.Proofs.Group.Concat
import Mathlib.Data.List.Forall2

/-!
# Groups read by characters

The decoder goes over octets, and a backslash makes it step over two or four of them, which may
leave it inside a character. It comes to the same fields as a reader that goes over characters,
because the octets of a character after its first are no comma and no backslash, and because an
octet that is a digit is a character of its own. For the same reason every comma that it cuts at
lies between two characters.
-/
namespace GroupedOptions.Group

open Text

/-- What the characters of a group stand for: a character, the octet of an octal escape, or the
end of a field. -/
inductive Sign where
  | char (c : Char)
  | octet (value : UInt8)
  | comma
  deriving DecidableEq, Repr

/-- The octet that three octal digits stand for, of which the first is at most 3. -/
def octalOf? (a b c : Char) : Option UInt8 :=
  if '0' ≤ a ∧ a ≤ '3' ∧ '0' ≤ b ∧ b ≤ '7' ∧ '0' ≤ c ∧ c ≤ '7' then
    some (UInt8.ofNat ((a.toNat - 48) * 64 + (b.toNat - 48) * 8 + (c.toNat - 48)))
  else none

/-- Reads the characters of a group from left to right. -/
def signs : List Char → List Sign
  | [] => []
  | x :: rest =>
      if x = ',' then .comma :: signs rest
      else if x = '\\' then
        match rest with
        | a :: b :: c :: tail =>
            match octalOf? a b c with
            | some value => .octet value :: signs tail
            | none => .char a :: signs (b :: c :: tail)
        | a :: tail => .char a :: signs tail
        | [] => [.char x]
      else .char x :: signs rest

/-- The octets that a sign adds to its field. -/
def Sign.octets : Sign → List UInt8
  | .char c => String.utf8EncodeChar c
  | .octet value => [value]
  | .comma => []

/-- The octets of every field that the characters spell, in order. -/
def spelledFields (text : List Char) : List (List UInt8) :=
  ((signs text).splitOn .comma).map fun field => field.flatMap Sign.octets

/-- `Decodes group octets field`: the field is the text with these octets, or if there is none the
error that names the group. -/
inductive Decodes (group : String) (octets : List UInt8) : Except DecodeError String → Prop
  | text {text : String} : toOctets text.toList = octets → Decodes group octets (.ok text)
  | invalid : (∀ text : String, toOctets text.toList ≠ octets) →
      Decodes group octets (.error ⟨group⟩)

/-- The octets of the first field, and the offset right after the comma that ends it, if there is
one. -/
def firstField : List UInt8 → List UInt8 × Option Nat
  | [] => ([], none)
  | x :: rest =>
      if x = commaOctet then ([], some 1)
      else if x = backslashOctet then
        match rest with
        | a :: b :: c :: tail =>
            match octal? a b c with
            | some value => (firstField tail).map (value :: ·) (Option.map (· + 4))
            | none => (firstField (b :: c :: tail)).map (a :: ·) (Option.map (· + 2))
        | a :: tail => (firstField tail).map (a :: ·) (Option.map (· + 2))
        | [] => ([x], none)
      else (firstField rest).map (x :: ·) (Option.map (· + 1))

/-- `Yields group text fields`: going on from `text`, the fields come one after the other. There is
no way on from a cut inside a character, and a field that does not decode ends nothing. -/
inductive Yields (group : String) : List Char → List (Except DecodeError String) → Prop
  | last {text octets field} : firstField (toOctets text) = (octets, none) →
      Decodes group octets field → Yields group text [field]
  | next {text octets offset rest field fields} :
      firstField (toOctets text) = (octets, some offset) → Decodes group octets field →
      dropOctets offset text = some rest → Yields group rest fields →
      Yields group text (field :: fields)

theorem utf8EncodeChar_of_lt {c : Char} (h : c.toNat < 128) :
    String.utf8EncodeChar c = [UInt8.ofNat c.toNat] := by
  have hsize : c.utf8Size = 1 := by
    rw [Char.utf8Size_eq_one_iff, UInt32.le_iff_toNat_le]
    exact Nat.le_of_lt_succ h
  rw [String.utf8EncodeChar_eq_singleton hsize]
  rfl

/-- An octet below 128 is a character of its own. -/
theorem exists_of_toOctets_eq_cons {text : List Char} {x : UInt8} {xs : List UInt8}
    (h : toOctets text = x :: xs) (hx : x.toNat < 128) :
    ∃ c rest, text = c :: rest ∧ c.toNat = x.toNat ∧ toOctets rest = xs := by
  cases text with
  | nil => cases h
  | cons c rest =>
    obtain ⟨y, ys, henc, _⟩ := exists_utf8EncodeChar_eq_cons c
    rw [toOctets_cons, henc, List.cons_append, List.cons.injEq] at h
    obtain ⟨rfl, htail⟩ := h
    have hchar : y.toNat = c.toNat := by
      obtain hlow | hhigh := toNat_of_mem_utf8EncodeChar (c := c) (x := y) (by simp [henc])
      · exact hlow
      · omega
    rw [utf8EncodeChar_of_lt (by omega)] at henc
    cases henc
    exact ⟨c, rest, rfl, hchar.symm, htail⟩

theorem toNat_sub_digit {x : UInt8} (h : '0'.toNat ≤ x.toNat) : (x - 48).toNat = x.toNat - 48 :=
  UInt8.toNat_sub_of_le x 48 (UInt8.le_iff_toNat_le.mpr h)

/-- Digits mean the same as octets and as characters. -/
theorem octal?_eq_octalOf? {x y z : UInt8} {a b c : Char} (ha : a.toNat = x.toNat)
    (hb : b.toNat = y.toNat) (hc : c.toNat = z.toNat) : octal? x y z = octalOf? a b c := by
  unfold octal? octalOf?
  simp only [UInt8.le_iff_toNat_le, Char.le_def, UInt32.le_iff_toNat_le, Char.toNat_val, ha, hb, hc]
  refine ite_congr rfl (fun hdigits => ?_) fun _ => rfl
  obtain ⟨hx, _, hy, _, hz, _⟩ := hdigits
  refine congrArg some (UInt8.toNat_inj.mp ?_)
  simp only [UInt8.toNat_add, UInt8.toNat_mul, toNat_sub_digit hx, toNat_sub_digit hy,
    toNat_sub_digit hz, UInt8.toNat_ofNat', UInt8.reduceToNat]
  omega

theorem lt_of_octal? {x y z value : UInt8} (h : octal? x y z = some value) :
    x.toNat < 128 ∧ y.toNat < 128 ∧ z.toNat < 128 := by
  unfold octal? at h
  split at h
  next hdigits =>
    simp only [UInt8.le_iff_toNat_le, UInt8.reduceToNat] at hdigits
    omega
  next => cases h

theorem lt_of_octalOf? {a b c : Char} {value : UInt8} (h : octalOf? a b c = some value) :
    a.toNat < 128 ∧ b.toNat < 128 ∧ c.toNat < 128 := by
  unfold octalOf? at h
  split at h
  next hdigits =>
    simp only [Char.le_def, UInt32.le_iff_toNat_le, Char.toNat_val] at hdigits
    have h3 : '3'.toNat = 51 := rfl
    have h7 : '7'.toNat = 55 := rfl
    omega
  next => cases h

@[simp] theorem signs_nil : signs [] = [] := by rw [signs.eq_def]

@[simp] theorem signs_comma (rest : List Char) : signs (',' :: rest) = .comma :: signs rest := by
  rw [signs.eq_def]; simp

@[simp] theorem signs_backslash : signs ['\\'] = [.char '\\'] := by
  rw [signs.eq_def]; simp

theorem signs_plain {x : Char} (hc : x ≠ ',') (hb : x ≠ '\\') (rest : List Char) :
    signs (x :: rest) = .char x :: signs rest := by
  rw [signs.eq_def]; simp [hc, hb]

theorem signs_octal {a b c : Char} {value : UInt8} (h : octalOf? a b c = some value)
    (tail : List Char) : signs ('\\' :: a :: b :: c :: tail) = .octet value :: signs tail := by
  rw [signs.eq_def]; simp [h]

theorem signs_escaped {a : Char} {rest : List Char}
    (h : ∀ b c tail, rest = b :: c :: tail → octalOf? a b c = none) :
    signs ('\\' :: a :: rest) = .char a :: signs rest := by
  rw [signs.eq_def]
  match rest, h with
  | [], _ => simp
  | [b], _ => simp
  | b :: c :: tail, h => simp [h b c tail rfl]

/-- What the decoder makes of a sign. -/
def Sign.symbols : Sign → List Symbol
  | .comma => [.comma]
  | sign => sign.octets.map .octet

/-- Three digits after a backslash are one octet. -/
theorem symbols_toOctets_octal {a b c : Char} {value : UInt8} (h : octalOf? a b c = some value)
    (rest : List Char) :
    symbols (toOctets ('\\' :: a :: b :: c :: rest)) = .octet value :: symbols (toOctets rest) := by
  obtain ⟨ha, hb, hc⟩ := lt_of_octalOf? h
  have hoctal : octal? (UInt8.ofNat a.toNat) (UInt8.ofNat b.toNat) (UInt8.ofNat c.toNat) =
      some value := by
    rw [← h]
    apply octal?_eq_octalOf?
    all_goals
      rw [UInt8.toNat_ofNat']
      omega
  simp only [toOctets_cons, utf8EncodeChar_backslash, utf8EncodeChar_of_lt ha,
    utf8EncodeChar_of_lt hb, utf8EncodeChar_of_lt hc, List.cons_append, List.nil_append]
  exact symbols_octal hoctal _

/-- Any other character after a backslash stands for itself, however many octets it has. -/
theorem symbols_toOctets_escaped {a : Char} {rest : List Char}
    (h : ∀ b c tail, rest = b :: c :: tail → octalOf? a b c = none) :
    symbols (toOctets ('\\' :: a :: rest)) =
      (Sign.char a).symbols ++ symbols (toOctets rest) := by
  obtain ⟨x, xs, henc, hplain⟩ := exists_utf8EncodeChar_eq_cons a
  have hescaped : ∀ y z tail, xs ++ toOctets rest = y :: z :: tail → octal? x y z = none := by
    intro y z tail heq
    by_contra hsome
    obtain ⟨value, hvalue⟩ := Option.ne_none_iff_exists'.mp hsome
    obtain ⟨hx, hy, hz⟩ := lt_of_octal? hvalue
    have hlist : toOctets (a :: rest) = x :: y :: z :: tail := by
      rw [toOctets_cons, henc, List.cons_append, heq]
    obtain ⟨_, _, ⟨⟩, ha, hrest⟩ := exists_of_toOctets_eq_cons hlist hx
    obtain ⟨b, _, rfl, hb, hrest⟩ := exists_of_toOctets_eq_cons hrest hy
    obtain ⟨c, _, rfl, hc, _⟩ := exists_of_toOctets_eq_cons hrest hz
    rw [octal?_eq_octalOf? ha hb hc, h b c _ rfl] at hvalue
    cases hvalue
  rw [toOctets_cons, toOctets_cons, utf8EncodeChar_backslash, henc, List.cons_append,
    List.cons_append, List.nil_append, symbols_escaped hescaped,
    symbols_append_of_isPlain hplain]
  simp [Sign.symbols, Sign.octets, henc]

/-- The decoder reads octets as the reader of characters does. -/
theorem symbols_toOctets (text : List Char) :
    symbols (toOctets text) = (signs text).flatMap Sign.symbols := by
  -- The cases are those of the reader of characters; an escape is three digits or one character.
  induction text using signs.induct with
  | case1 => simp
  | case2 rest ih => simp [utf8EncodeChar_comma, Sign.symbols, ih]
  | case3 a b c tail value hoctal _ ih =>
    rw [symbols_toOctets_octal hoctal, signs_octal hoctal, ih]
    rfl
  | case4 a b c tail hoctal _ ih =>
    have hnone : ∀ b' c' tail', b :: c :: tail = b' :: c' :: tail' → octalOf? a b' c' = none := by
      rintro b' c' tail' ⟨⟩
      exact hoctal
    rw [symbols_toOctets_escaped hnone, signs_escaped hnone, ih]
    rfl
  | case5 a tail hshort _ ih =>
    have hnone : ∀ b c tail', tail = b :: c :: tail' → octalOf? a b c = none :=
      fun b c tail' heq => (hshort b c tail' heq).elim
    rw [symbols_toOctets_escaped hnone, signs_escaped hnone, ih]
    rfl
  | case6 => simp [utf8EncodeChar_backslash, Sign.symbols, Sign.octets]
  | case7 x rest hcomma hbackslash ih =>
    have hplain : ∀ octet ∈ String.utf8EncodeChar x, IsPlain octet :=
      fun _ hmem => isPlain_of_mem_utf8EncodeChar hcomma hbackslash hmem
    rw [toOctets_cons, symbols_append_of_isPlain hplain, signs_plain hcomma hbackslash, ih]
    rfl

theorem cutFields_map_octet_append (xs : List UInt8) (ys : List Symbol) :
    cutFields (xs.map .octet ++ ys) = (cutFields ys).modifyHead (xs ++ ·) := by
  induction xs with
  | nil =>
    rw [List.map_nil, List.nil_append]
    cases cutFields ys <;> rfl
  | cons x xs ih =>
    rw [List.map_cons, List.cons_append, cutFields, ih, List.modifyHead_modifyHead]
    rfl

/-- Fields are cut in the same places. -/
theorem cutFields_flatMap_symbols (ss : List Sign) :
    cutFields (ss.flatMap Sign.symbols) =
      (ss.splitOn .comma).map fun field => field.flatMap Sign.octets := by
  induction ss with
  | nil => rfl
  | cons sign ss ih =>
    by_cases hcomma : sign = .comma
    · simp [hcomma, List.splitOn_cons_eq_if_modifyHead, Sign.symbols, cutFields, ih]
    · have hsymbols : sign.symbols = sign.octets.map .octet := by
        cases sign <;> simp_all [Sign.symbols]
      obtain ⟨field, fields, hsplit⟩ := List.exists_cons_of_ne_nil (List.splitOn_ne_nil .comma ss)
      rw [List.flatMap_cons, hsymbols, cutFields_map_octet_append, ih,
        List.splitOn_cons_eq_if_modifyHead, hsplit]
      simp [hcomma]

theorem rawFields_eq_spelledFields (group : String) :
    rawFields group = spelledFields group.toList := by
  rw [rawFields, symbols_toOctets, cutFields_flatMap_symbols]
  rfl

theorem length_splitOn {α : Type} [DecidableEq α] (x : α) (xs : List α) :
    (xs.splitOn x).length = xs.count x + 1 := by
  induction xs with
  | nil => rfl
  | cons y ys ih => by_cases h : y = x <;> simp [List.splitOn_cons_eq_if_modifyHead, h, ih]

theorem decodes_ofOctets? (group : String) (octets : List UInt8) :
    Decodes group octets ((ofOctets? octets).elim (.error ⟨group⟩) .ok) := by
  cases h : ofOctets? octets with
  | some text => exact .text (ofOctets?_eq_some_iff.mp h)
  | none =>
    refine .invalid fun text htext => ?_
    rw [ofOctets?_eq_some_iff.mpr htext] at h
    cases h

@[simp] theorem firstField_comma (rest : List UInt8) :
    firstField (commaOctet :: rest) = ([], some (([] : List UInt8).length + 1)) := by
  rw [firstField.eq_def]; simp

@[simp] theorem firstField_backslash : firstField [backslashOctet] = ([backslashOctet], none) := by
  rw [firstField.eq_def]; simp [backslashOctet, commaOctet]

theorem firstField_plain {x : UInt8} (h : IsPlain x) (rest : List UInt8) :
    firstField (x :: rest) = (firstField rest).map (x :: ·) (Option.map (· + 1)) := by
  rw [firstField.eq_def]; simp [h.1, h.2]

theorem firstField_octal {a b c value : UInt8} (h : octal? a b c = some value)
    (tail : List UInt8) : firstField (backslashOctet :: a :: b :: c :: tail) =
      (firstField tail).map (value :: ·) (Option.map (· + 4)) := by
  rw [firstField.eq_def]; simp [backslashOctet, commaOctet, h]

theorem firstField_escaped {a : UInt8} {rest : List UInt8}
    (h : ∀ b c tail, rest = b :: c :: tail → octal? a b c = none) :
    firstField (backslashOctet :: a :: rest) =
      (firstField rest).map (a :: ·) (Option.map (· + 2)) := by
  rw [firstField.eq_def]
  match rest, h with
  | [], _ => simp [backslashOctet, commaOctet]
  | [b], _ => simp [backslashOctet, commaOctet]
  | b :: c :: tail, h => simp [backslashOctet, commaOctet, h b c tail rfl]

/-- The first field is the first of all, and those after its comma are the others. -/
inductive IsFirst (xs : List UInt8) : Prop
  | last (octets) : firstField xs = (octets, none) → cutFields (symbols xs) = [octets] → IsFirst xs
  | next (octets before rest) : xs = before ++ commaOctet :: rest →
      firstField xs = (octets, some (before.length + 1)) →
      cutFields (symbols xs) = octets :: cutFields (symbols rest) → IsFirst xs

/-- The octets that one symbol takes leave the rest as it is. -/
theorem IsFirst.append (front : List UInt8) {tail : List UInt8} {x : UInt8} (h : IsFirst tail)
    (hsymbols : symbols (front ++ tail) = .octet x :: symbols tail)
    (hfirst : firstField (front ++ tail) =
      (firstField tail).map (x :: ·) (Option.map (· + front.length))) :
    IsFirst (front ++ tail) := by
  cases h with
  | last octets hlast hfields =>
    refine .last (x :: octets) ?_ ?_
    · rw [hfirst, hlast]
      rfl
    · rw [hsymbols, cutFields, hfields]
      rfl
  | next octets before rest htail hnext hfields =>
    refine .next (x :: octets) (front ++ before) rest ?_ ?_ ?_
    · rw [htail, List.append_assoc]
    · have hlength : before.length + 1 + front.length = (front ++ before).length + 1 := by
        rw [List.length_append]
        omega
      rw [hfirst, hnext, ← hlength]
      rfl
    · rw [hsymbols, cutFields, hfields]
      rfl

theorem isFirst (xs : List UInt8) : IsFirst xs := by
  induction xs using symbols.induct with
  | case1 => exact .last [] rfl rfl
  | case2 rest => exact .next [] [] rest rfl (firstField_comma rest) (by simp [cutFields])
  | case3 a b c tail value hoctal _ ih =>
    exact .append [backslashOctet, a, b, c] ih (symbols_octal hoctal tail)
      (firstField_octal hoctal tail)
  | case4 a b c tail hoctal _ ih =>
    have hnone : ∀ b' c' tail', b :: c :: tail = b' :: c' :: tail' → octal? a b' c' = none := by
      rintro b' c' tail' ⟨⟩
      exact hoctal
    exact .append [backslashOctet, a] ih (symbols_escaped hnone) (firstField_escaped hnone)
  | case5 a tail hshort _ ih =>
    have hnone : ∀ b c tail', tail = b :: c :: tail' → octal? a b c = none :=
      fun b c tail' heq => (hshort b c tail' heq).elim
    exact .append [backslashOctet, a] ih (symbols_escaped hnone) (firstField_escaped hnone)
  | case6 => exact .last _ firstField_backslash (by simp [cutFields])
  | case7 x rest hcomma hbackslash ih =>
    exact .append [x] ih (symbols_plain hcomma hbackslash rest)
      (firstField_plain ⟨hcomma, hbackslash⟩ rest)

/-- An octet of a comma is a comma, so the texts before and after it are whole. -/
theorem exists_of_toOctets_eq_append_comma {text : List Char} {before rest : List UInt8}
    (h : toOctets text = before ++ commaOctet :: rest) :
    ∃ a b, text = a ++ ',' :: b ∧ toOctets a = before ∧ toOctets b = rest := by
  induction text generalizing before with
  | nil => simp at h
  | cons c text ih =>
    cases before with
    | nil =>
      obtain ⟨d, b, ⟨⟩, hd, hb⟩ := exists_of_toOctets_eq_cons h (by decide)
      cases Char.toNat_inj.mp (show c.toNat = ','.toNat from hd)
      exact ⟨[], text, rfl, rfl, hb⟩
    | cons x before =>
      obtain ⟨y, ys, henc, hplain⟩ := exists_utf8EncodeChar_eq_cons c
      rw [toOctets_cons, henc, List.cons_append, List.cons_append, List.cons.injEq] at h
      obtain ⟨rfl, h⟩ := h
      obtain ⟨front, rfl, htext⟩ | ⟨back, rfl, htext⟩ := List.append_eq_append_iff.mp h
      · obtain ⟨a, b, rfl, rfl, rfl⟩ := ih htext
        exact ⟨c :: a, b, rfl, by simp [henc], rfl⟩
      · cases back with
        | nil =>
          obtain ⟨a, b, rfl, ha, rfl⟩ := @ih [] htext.symm
          exact ⟨c :: a, b, rfl, by simp [henc, ha], rfl⟩
        | cons z back =>
          obtain ⟨rfl, _⟩ := List.cons.inj htext
          exact absurd rfl (hplain commaOctet (by simp)).1

theorem yields_cutFields (group : String) (text : List Char) :
    Yields group text ((cutFields (symbols (toOctets text))).map fun octets =>
      (ofOctets? octets).elim (.error ⟨group⟩) .ok) := by
  cases isFirst (toOctets text) with
  | last _ hlast hfields =>
    rw [hfields]
    exact .last hlast (decodes_ofOctets? group _)
  | next _ _ _ htext hnext hfields =>
    obtain ⟨a, b, heq, rfl, rfl⟩ := exists_of_toOctets_eq_append_comma htext
    have hdrop : dropOctets ((toOctets a).length + 1) text = some b := by
      have hcut := dropOctets_octetCount (a ++ [',']) b
      rwa [octetCount_append, ← length_toOctets, List.append_assoc, List.singleton_append,
        ← heq] at hcut
    have hlater := yields_cutFields group b
    rw [hfields]
    exact .next hnext (decodes_ofOctets? group _) hdrop hlater
-- The text after a comma is shorter, but it is no tail that the recursion could be on.
termination_by text.length
decreasing_by
  rw [heq, List.length_append, List.length_cons]
  omega

/-- The fields of a group are those that its characters spell, one more than there are commas that
end a field. They come one after the other to the end, each cut lies between two characters, and
each field whose octets are no text fails on its own. -/
theorem fields_decode (group : String) :
    List.Forall₂ (Decodes group) (spelledFields group.toList) (fields group) ∧
      (fields group).length = (signs group.toList).count .comma + 1 ∧
      Yields group group.toList (fields group) := by
  refine ⟨?_, ?_, yields_cutFields group group.toList⟩
  · rw [fields, rawFields_eq_spelledFields, List.forall₂_map_right_iff, List.forall₂_same]
    exact fun octets _ => decodes_ofOctets? group octets
  · rw [fields, rawFields_eq_spelledFields, spelledFields, List.length_map, List.length_map,
      length_splitOn]

end GroupedOptions.Group
