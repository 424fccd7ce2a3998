/-!
# Octet offsets in text

Positions in a text count the octets of its UTF-8 form, while the text itself
is a list of characters. A cut at an offset succeeds exactly at a boundary
between two characters, and octets that are no UTF-8 form of any text are
refused when they are read back.
-/

namespace GroupedOptions.Text

/-- The number of octets in the UTF-8 form of a run of characters. -/
def octetCount : List Char → Nat
  | [] => 0
  | c :: cs => c.utf8Size + octetCount cs

@[simp] theorem octetCount_nil : octetCount [] = 0 := rfl

@[simp] theorem octetCount_cons (c : Char) (cs : List Char) :
    octetCount (c :: cs) = c.utf8Size + octetCount cs := rfl

@[simp] theorem octetCount_append (a b : List Char) :
    octetCount (a ++ b) = octetCount a + octetCount b := by
  induction a with
  | nil => simp
  | cons c cs ih => simp [ih, Nat.add_assoc]

/-- The text after the first `n` octets, when a character starts or the text ends there. -/
def dropOctets : Nat → List Char → Option (List Char)
  | 0, cs => some cs
  | _ + 1, [] => none
  | n + 1, c :: cs =>
      if c.utf8Size ≤ n + 1 then dropOctets (n + 1 - c.utf8Size) cs else none

theorem dropOctets_octetCount (a b : List Char) : dropOctets (octetCount a) (a ++ b) = some b := by
  induction a with
  | nil => simp [dropOctets]
  | cons c cs ih =>
    have hpos := c.utf8Size_pos
    obtain ⟨n, hn⟩ : ∃ n, c.utf8Size + octetCount cs = n + 1 := ⟨_, (Nat.succ_pred (by omega)).symm⟩
    have hle : c.utf8Size ≤ n + 1 := by omega
    have hsub : n + 1 - c.utf8Size = octetCount cs := by omega
    rw [octetCount_cons, List.cons_append, hn]
    simp [dropOctets, hle, hsub, ih]

/-- The character that starts at octet `n`. -/
def charAt? (n : Nat) (cs : List Char) : Option Char :=
  (dropOctets n cs).bind List.head?

/-- The octets of the UTF-8 form of a run of characters. -/
def toOctets (cs : List Char) : List UInt8 :=
  cs.flatMap String.utf8EncodeChar

@[simp] theorem toOctets_nil : toOctets [] = [] := rfl

@[simp] theorem toOctets_cons (c : Char) (cs : List Char) :
    toOctets (c :: cs) = String.utf8EncodeChar c ++ toOctets cs := by
  simp [toOctets]

@[simp] theorem toOctets_append (a b : List Char) :
    toOctets (a ++ b) = toOctets a ++ toOctets b := by
  simp [toOctets]

theorem length_toOctets (cs : List Char) : (toOctets cs).length = octetCount cs := by
  induction cs with
  | nil => rfl
  | cons c cs ih => simp [ih]

theorem toByteArray_toOctets (cs : List Char) :
    (toOctets cs).toByteArray = (String.ofList cs).toByteArray := by
  simp [toOctets, String.toByteArray_ofList, List.utf8Encode]

/-- Octets start with the form of a text exactly if their own text starts with it. -/
theorem toOctets_prefix_iff {a b : List Char} : toOctets a <+: toOctets b ↔ a <+: b := by
  constructor
  · intro h
    induction a generalizing b with
    | nil => exact List.nil_prefix
    | cons c a ih =>
      obtain ⟨rest, hrest⟩ := h
      cases b with
      | nil =>
        have hlen := congrArg List.length hrest
        have hpos := c.utf8Size_pos
        simp only [toOctets_cons, toOctets_nil, List.length_append, List.length_nil,
          String.length_utf8EncodeChar] at hlen
        omega
      | cons d b =>
        rw [toOctets_cons, toOctets_cons, List.append_assoc] at hrest
        -- Whatever follows, the first character can be read off the octets.
        have hfirst := congrArg (fun octets => octets.toByteArray.utf8DecodeChar? 0) hrest
        simp only [List.toByteArray_append, ByteArray.utf8DecodeChar?_utf8EncodeChar_append,
          Option.some.injEq] at hfirst
        subst hfirst
        rw [List.append_cancel_left_eq] at hrest
        exact List.cons_prefix_cons.mpr ⟨rfl, ih ⟨rest, hrest⟩⟩
  · rintro ⟨rest, rfl⟩
    exact ⟨toOctets rest, by simp⟩

/-- The text whose UTF-8 form is `octets`, if there is one. -/
def ofOctets? (octets : List UInt8) : Option String :=
  String.fromUTF8? octets.toByteArray

theorem ofOctets?_toOctets (cs : List Char) :
    ofOctets? (toOctets cs) = some (String.ofList cs) := by
  have hv : (toOctets cs).toByteArray.IsValidUTF8 :=
    toByteArray_toOctets cs ▸ (String.ofList cs).isValidUTF8
  unfold ofOctets? String.fromUTF8?
  rw [dif_pos hv]
  refine congrArg some (String.toByteArray_inj.mp ?_)
  simpa [String.fromUTF8] using toByteArray_toOctets cs

/-- A text is read from its own form and from no other. -/
theorem ofOctets?_eq_some_iff {octets : List UInt8} {text : String} :
    ofOctets? octets = some text ↔ toOctets text.toList = octets := by
  constructor
  · intro h
    unfold ofOctets? String.fromUTF8? at h
    split at h
    next hv =>
      have hbytes : text.toByteArray = octets.toByteArray := by
        rw [← Option.some.inj h]
        rfl
      rw [← String.ofList_toList (s := text), ← toByteArray_toOctets] at hbytes
      simpa using congrArg (fun bytes => bytes.data.toList) hbytes
    next => cases h
  · rintro rfl
    rw [ofOctets?_toOctets, String.ofList_toList]

end GroupedOptions.Text
