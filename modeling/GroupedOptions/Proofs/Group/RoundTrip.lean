import GroupedOptions.Group

/-!
# Joined groups decode to their fields

Escaping works on characters and decoding on octets. An octet that stands for
itself stays in its field, and in the octets of an escaped field the only
commas and backslashes are those that a backslash goes before. Hence the
decoder never finds an octal escape there, and the comma between two fields is
the only one that it cuts at.
-/
namespace GroupedOptions.Group

open Text

/-- Octets below 128 occur in the form of the character of that number alone. -/
theorem toNat_of_mem_utf8EncodeChar {c : Char} {x : UInt8} (h : x ∈ String.utf8EncodeChar c) :
    x.toNat = c.toNat ∨ 128 ≤ x.toNat := by
  simp only [String.utf8EncodeChar] at h
  simp only [Char.toNat]
  split at h
  · have hx := List.mem_singleton.mp h
    subst hx
    left
    simp only [UInt8.toNat_ofNat']
    omega
  · right
    split at h
    · simp only [List.mem_cons, List.not_mem_nil, or_false] at h
      rcases h with rfl | rfl <;> simp only [UInt8.toNat_ofNat'] <;> omega
    split at h
    · simp only [List.mem_cons, List.not_mem_nil, or_false] at h
      rcases h with rfl | rfl | rfl <;> simp only [UInt8.toNat_ofNat'] <;> omega
    · simp only [List.mem_cons, List.not_mem_nil, or_false] at h
      have hc := c.toNat_val
      rcases h with rfl | rfl | rfl | rfl <;> simp only [UInt8.toNat_ofNat'] <;> omega

theorem utf8EncodeChar_comma : String.utf8EncodeChar ',' = [commaOctet] := rfl

theorem utf8EncodeChar_backslash : String.utf8EncodeChar '\\' = [backslashOctet] := rfl

/-- An octet that the decoder takes as it stands. -/
def IsPlain (x : UInt8) : Prop := x ≠ commaOctet ∧ x ≠ backslashOctet

theorem isPlain_of_mem_utf8EncodeChar {c : Char} (hc : c ≠ ',') (hb : c ≠ '\\') {x : UInt8}
    (h : x ∈ String.utf8EncodeChar c) : IsPlain x := by
  have hchar : ∀ d : Char, c ≠ d → d.toNat < 128 → x.toNat ≠ d.toNat := by
    intro d hd hlt heq
    rcases toNat_of_mem_utf8EncodeChar h with hx | hx
    · exact hd (Char.toNat_inj.mp (hx.symm.trans heq))
    · omega
  constructor
  · rintro rfl
    exact hchar ',' hc (by decide) rfl
  · rintro rfl
    exact hchar '\\' hb (by decide) rfl

theorem symbols_append_of_isPlain {xs : List UInt8} (h : ∀ x ∈ xs, IsPlain x)
    (rest : List UInt8) : symbols (xs ++ rest) = xs.map .octet ++ symbols rest := by
  induction xs with
  | nil => rfl
  | cons x xs ih =>
    obtain ⟨hc, hb⟩ := h x (by simp)
    rw [List.cons_append, symbols_plain hc hb, ih fun y hy => h y (by simp [hy])]
    rfl

/-- A backslash before a comma or a backslash starts no octal escape, whatever follows. -/
theorem symbols_backslash_cons {a : UInt8} (ha : a = commaOctet ∨ a = backslashOctet)
    (rest : List UInt8) : symbols (backslashOctet :: a :: rest) = .octet a :: symbols rest := by
  apply symbols_escaped
  intro b c tail _
  rcases ha with rfl | rfl <;> simp [octal?, commaOctet, backslashOctet]

/-- An escaped field yields its own octets and leaves the decoder where the text after it starts. -/
theorem symbols_escapeChars_append (cs : List Char) (rest : List UInt8) :
    symbols (toOctets (escapeChars cs) ++ rest) = (toOctets cs).map .octet ++ symbols rest := by
  induction cs with
  | nil => rfl
  | cons c cs ih =>
    by_cases hc : c = ','
    · subst hc
      simp [escapeChars, utf8EncodeChar_comma, utf8EncodeChar_backslash, symbols_backslash_cons, ih]
    by_cases hb : c = '\\'
    · subst hb
      simp [escapeChars, utf8EncodeChar_backslash, symbols_backslash_cons, ih]
    · have hplain : ∀ x ∈ String.utf8EncodeChar c, IsPlain x :=
        fun x hx => isPlain_of_mem_utf8EncodeChar hc hb hx
      simp [escapeChars, hc, hb, symbols_append_of_isPlain hplain, ih]

theorem cutFields_map_octet (xs : List UInt8) : cutFields (xs.map .octet) = [xs] := by
  induction xs with
  | nil => rfl
  | cons x xs ih => simp [cutFields, ih]

theorem rawFields_escape (field : String) : rawFields (escape field) = [toOctets field.toList] := by
  have h := symbols_escapeChars_append field.toList []
  simp only [List.append_nil, symbols_nil] at h
  simp [rawFields, escape, h, cutFields_map_octet]

theorem rawFields_escape_append_comma (field rest : String) :
    rawFields (escape field ++ "," ++ rest) = toOctets field.toList :: rawFields rest := by
  have h := symbols_escapeChars_append field.toList (commaOctet :: toOctets rest.toList)
  have hlist : toOctets (escape field ++ "," ++ rest).toList =
      toOctets (escapeChars field.toList) ++ commaOctet :: toOctets rest.toList := by
    simp [escape, utf8EncodeChar_comma]
  rw [rawFields, hlist, h, symbols_comma, cutFields_append_comma, cutFields_map_octet]
  rfl

/-- The fields in escaped form, with a comma between two of them. -/
def joined (fields : List String) : String := ",".intercalate (fields.map escape)

theorem foldl_addEscaped (group : String) (fields : List String) :
    fields.foldl (fun group field => some (addEscaped group field)) (some group) =
      some (",".intercalate (group :: fields.map escape)) := by
  induction fields generalizing group with
  | nil => simp
  | cons f fs ih =>
    rw [List.foldl_cons, ih]
    cases fs <;> simp [addEscaped, add, String.intercalate_cons_cons, String.append_assoc]

theorem join_cons (field : String) (fields : List String) :
    join (field :: fields) = some (joined (field :: fields)) := by
  rw [join, List.foldl_cons]
  exact foldl_addEscaped (escape field) fields

theorem rawFields_joined (field : String) (fields : List String) :
    rawFields (joined (field :: fields)) = (field :: fields).map fun f => toOctets f.toList := by
  induction fields generalizing field with
  | nil => simp [joined, rawFields_escape]
  | cons g gs ih =>
    have hcut : joined (field :: g :: gs) = escape field ++ "," ++ joined (g :: gs) := by
      simp [joined, String.intercalate_cons_cons]
    rw [hcut, rawFields_escape_append_comma, ih]
    rfl

/-- Decoding gives back the fields that were joined. -/
theorem fields_joined (field : String) (fields : List String) :
    Group.fields (joined (field :: fields)) = (field :: fields).map .ok := by
  rw [Group.fields, rawFields_joined, List.map_map]
  apply List.map_congr_left
  intro f _
  simp [ofOctets?_toOctets]

theorem fields_escape (field : String) : Group.fields (escape field) = [.ok field] := by
  simpa [joined] using fields_joined field []

/-- Fields that are added one by one in escaped form, the first to no group at all, come back
as they were and in the same order; so does a single field that is escaped. -/
theorem fields_foldl_addEscaped (field : String) (fields : List String) :
    (∃ group, (field :: fields).foldl (fun group f => some (addEscaped group f)) none = some group ∧
        Group.fields group = (field :: fields).map .ok) ∧
      Group.fields (escape field) = [.ok field] := by
  exact ⟨⟨joined (field :: fields), join_cons field fields, fields_joined field fields⟩,
    fields_escape field⟩

end GroupedOptions.Group
