import GroupedOptions.Json.Token

/-!
# The strings of a JSON text

A string may be spelled in many ways: a character as it stands, as a backslash and a letter, or by
its 16-bit units in hexadecimal digits of either case, of which a character beyond the first 65536
needs two. The main statement is that every spelling is read back as the string, whatever comes
after it.
-/
namespace GroupedOptions.Json

def shortEscapes : List (Char × Char) :=
  [('"', '"'), ('\\', '\\'), ('/', '/'), ('b', '\x08'), ('f', '\x0c'), ('n', '\n'), ('r', '\r'),
    ('t', '\t')]

/-- A hexadecimal digit of the given value, in either case. -/
def IsHexDigit (n : Nat) (c : Char) : Prop :=
  n < 16 ∧ (c = Nat.digitChar n ∨ c = (Nat.digitChar n).toUpper)

inductive SpellsUnit : Nat → List Char → Prop
  | digits {a b c d : Nat} {w x y z : Char} : IsHexDigit a w → IsHexDigit b x → IsHexDigit c y →
      IsHexDigit d z → SpellsUnit (16 * (16 * (16 * a + b) + c) + d) [w, x, y, z]

/-- How a single character may be written between the quotes. -/
inductive SpellsChar : Char → List Char → Prop
  | plain {c} : ' ' ≤ c → c ≠ '"' → c ≠ '\\' → SpellsChar c [c]
  | short {letter c} : (letter, c) ∈ shortEscapes → SpellsChar c ['\\', letter]
  | unit {c digits} : SpellsUnit c.toNat digits → SpellsChar c ('\\' :: 'u' :: digits)
  | pair {c high low} : 0x10000 ≤ c.toNat →
      SpellsUnit (0xD800 + (c.toNat - 0x10000) / 0x400) high →
      SpellsUnit (0xDC00 + (c.toNat - 0x10000) % 0x400) low →
      SpellsChar c ('\\' :: 'u' :: high ++ '\\' :: 'u' :: low)

/-- How a text may be written between the quotes. -/
inductive SpellsText : List Char → List Char → Prop
  | nil : SpellsText [] []
  | cons {c spelling cs text} : SpellsChar c spelling → SpellsText cs text →
      SpellsText (c :: cs) (spelling ++ text)

/-- A text without quotes, backslashes and control characters spells itself. -/
theorem spellsText_self {cs : List Char} (h : ∀ c ∈ cs, ' ' ≤ c ∧ c ≠ '"' ∧ c ≠ '\\') :
    SpellsText cs cs := by
  induction cs with
  | nil => exact .nil
  | cons c cs ih =>
    obtain ⟨hle, hquote, hbackslash⟩ := h c List.mem_cons_self
    exact .cons (.plain hle hquote hbackslash) (ih fun d hd => h d (List.mem_cons_of_mem c hd))

theorem tokensFrom_of_feed {mode next : Mode} {c : Char} {tokens : List Token}
    (h : mode.feed c = some (tokens, next)) (rest : List Char) :
    tokensFrom mode (c :: rest) = (tokensFrom next rest).map (tokens ++ ·) := by
  simp [tokensFrom, h]

theorem tokensFrom_of_feed_nil {mode next : Mode} {c : Char} (h : mode.feed c = some ([], next))
    (rest : List Char) : tokensFrom mode (c :: rest) = tokensFrom next rest := by
  simp [tokensFrom_of_feed h]

theorem escaped?_of_mem_shortEscapes {letter c : Char} (h : (letter, c) ∈ shortEscapes) :
    escaped? letter = some c ∧ letter ≠ 'u' := by
  simp only [shortEscapes, List.mem_cons, Prod.mk.injEq, List.not_mem_nil, or_false] at h
  rcases h with ⟨rfl, rfl⟩ | ⟨rfl, rfl⟩ | ⟨rfl, rfl⟩ | ⟨rfl, rfl⟩ | ⟨rfl, rfl⟩ | ⟨rfl, rfl⟩ |
    ⟨rfl, rfl⟩ | ⟨rfl, rfl⟩ <;> decide

theorem hexDigit?_of_isHexDigit {n : Nat} {c : Char} (h : IsHexDigit n c) :
    hexDigit? c = some n := by
  have hlower : ∀ m < 16, hexDigit? (Nat.digitChar m) = some m := by decide
  have hupper : ∀ m < 16, hexDigit? (Nat.digitChar m).toUpper = some m := by decide
  obtain ⟨hlt, rfl | rfl⟩ := h
  · exact hlower n hlt
  · exact hupper n hlt

theorem tokensFrom_unit {code : Nat} {digits : List Char} (h : SpellsUnit code digits)
    (pieces : List Piece) (rest : List Char) :
    tokensFrom (.string pieces) ('\\' :: 'u' :: digits ++ rest) =
      tokensFrom (.string (pieces ++ [.unit code])) rest := by
  have hopen (digits : List Char) : tokensFrom (.string pieces) ('\\' :: 'u' :: digits) =
      tokensFrom (.unit pieces []) digits :=
    (tokensFrom_of_feed_nil rfl _).trans (tokensFrom_of_feed_nil rfl _)
  cases h with
  | @digits a b c d w x y z ha hb hc hd =>
    have hw : hexValue? [w] = some a := by simp [hexValue?, hexDigit?_of_isHexDigit ha]
    have hx : hexValue? [w, x] = some (16 * a + b) := by
      simp [hexValue?, hexDigit?_of_isHexDigit ha, hexDigit?_of_isHexDigit hb]
    have hy : hexValue? [w, x, y] = some (16 * (16 * a + b) + c) := by
      simp [hexValue?, hexDigit?_of_isHexDigit ha, hexDigit?_of_isHexDigit hb,
        hexDigit?_of_isHexDigit hc]
    have hz : hexValue? [w, x, y, z] = some (16 * (16 * (16 * a + b) + c) + d) := by
      simp [hexValue?, hexDigit?_of_isHexDigit ha, hexDigit?_of_isHexDigit hb,
        hexDigit?_of_isHexDigit hc, hexDigit?_of_isHexDigit hd]
    calc tokensFrom (.string pieces) ('\\' :: 'u' :: [w, x, y, z] ++ rest)
      _ = tokensFrom (.unit pieces []) (w :: x :: y :: z :: rest) := hopen _
      _ = tokensFrom (.unit pieces [w]) (x :: y :: z :: rest) :=
        tokensFrom_of_feed_nil (by simp [Mode.feed, hw]) _
      _ = tokensFrom (.unit pieces [w, x]) (y :: z :: rest) :=
        tokensFrom_of_feed_nil (by simp [Mode.feed, hx]) _
      _ = tokensFrom (.unit pieces [w, x, y]) (z :: rest) :=
        tokensFrom_of_feed_nil (by simp [Mode.feed, hy]) _
      _ = _ := tokensFrom_of_feed_nil (by simp [Mode.feed, hz]) _

theorem isSurrogate_toNat (c : Char) :
    isHighSurrogate c.toNat = false ∧ isLowSurrogate c.toNat = false := by
  have hvalid : c.toNat.isValidChar := c.valid
  simp only [Nat.isValidChar] at hvalid
  simp only [isHighSurrogate, isLowSurrogate, Bool.and_eq_false_iff, decide_eq_false_iff_not]
  omega

theorem resolve_unit (c : Char) (later : List Piece) :
    resolve (.unit c.toNat :: later) = (resolve later).map (c :: ·) := by
  obtain ⟨hhigh, hlow⟩ := isSurrogate_toNat c
  cases later with
  | nil => simp [resolve, hhigh, hlow]
  | cons piece later => cases piece <;> simp [resolve, hhigh, hlow]

theorem resolve_pair {c : Char} (h : 0x10000 ≤ c.toNat) (later : List Piece) :
    resolve (.unit (0xD800 + (c.toNat - 0x10000) / 0x400) ::
        .unit (0xDC00 + (c.toNat - 0x10000) % 0x400) :: later) =
      (resolve later).map (c :: ·) := by
  have hvalid : c.toNat.isValidChar := c.valid
  simp only [Nat.isValidChar] at hvalid
  have hhigh : isHighSurrogate (0xD800 + (c.toNat - 0x10000) / 0x400) = true := by
    simp only [isHighSurrogate, Bool.and_eq_true, decide_eq_true_eq]
    omega
  have hlow : isLowSurrogate (0xDC00 + (c.toNat - 0x10000) % 0x400) = true := by
    simp only [isLowSurrogate, Bool.and_eq_true, decide_eq_true_eq]
    omega
  have hchar : ofSurrogates (0xD800 + (c.toNat - 0x10000) / 0x400)
      (0xDC00 + (c.toNat - 0x10000) % 0x400) = c := by
    have hcode : 0x10000 + (0xD800 + (c.toNat - 0x10000) / 0x400 - 0xD800) * 0x400 +
        (0xDC00 + (c.toNat - 0x10000) % 0x400 - 0xDC00) = c.toNat := by omega
    rw [ofSurrogates, hcode, Char.ofNat_toNat]
  simp only [resolve, hhigh, hlow, hchar, if_true]

/-- A character in any spelling is read as pieces that are resolved to it. -/
theorem SpellsChar.exists_pieces {c : Char} {spelling : List Char} (h : SpellsChar c spelling) :
    ∃ ps, (∀ pieces rest, tokensFrom (.string pieces) (spelling ++ rest) =
        tokensFrom (.string (pieces ++ ps)) rest) ∧
      ∀ later, resolve (ps ++ later) = (resolve later).map (c :: ·) := by
  cases h with
  | plain hle hquote hbackslash =>
    refine ⟨[.char c], fun pieces rest => tokensFrom_of_feed_nil ?_ rest, fun later => rfl⟩
    simp [Mode.feed, hquote, hbackslash, Char.not_lt.mpr hle]
  | short hmem =>
    obtain ⟨hescaped, hu⟩ := escaped?_of_mem_shortEscapes hmem
    refine ⟨[.char c], fun pieces rest => ?_, fun later => rfl⟩
    refine (tokensFrom_of_feed_nil rfl _).trans (tokensFrom_of_feed_nil ?_ rest)
    simp [Mode.feed, hescaped, hu]
  | unit hunit =>
    exact ⟨[.unit c.toNat], fun pieces rest => tokensFrom_unit hunit pieces rest, resolve_unit c⟩
  | @pair _ high low hle hhigh hlow =>
    refine ⟨[.unit _, .unit _], fun pieces rest => ?_, fun later => resolve_pair hle later⟩
    rw [List.append_assoc, tokensFrom_unit hhigh, tokensFrom_unit hlow, List.append_assoc]
    rfl

theorem SpellsText.exists_pieces {cs text : List Char} (h : SpellsText cs text) :
    ∃ ps, (∀ pieces rest, tokensFrom (.string pieces) (text ++ rest) =
        tokensFrom (.string (pieces ++ ps)) rest) ∧ resolve ps = some cs := by
  induction h with
  | nil => exact ⟨[], by simp, rfl⟩
  | cons hchar _ ih =>
    obtain ⟨ps, hread, hresolve⟩ := hchar.exists_pieces
    obtain ⟨qs, hread', hresolve'⟩ := ih
    refine ⟨ps ++ qs, fun pieces rest => ?_, by rw [hresolve, hresolve']; rfl⟩
    rw [List.append_assoc, hread, hread', List.append_assoc]

/-- A string in any spelling is one token. -/
theorem tokensFrom_string {s : String} {text : List Char} (h : SpellsText s.toList text)
    (rest : List Char) : tokensFrom .between ('"' :: text ++ '"' :: rest) =
      (tokensFrom .between rest).map (.string (some s) :: ·) := by
  obtain ⟨ps, hread, hresolve⟩ := h.exists_pieces
  have hopen : tokensFrom .between ('"' :: text ++ '"' :: rest) =
      tokensFrom (.string []) (text ++ '"' :: rest) := tokensFrom_of_feed_nil rfl _
  have hclose : Mode.feed (.string ps) '"' = some ([.string (some s)], .between) := by
    simp [Mode.feed, hresolve]
  rw [hopen, hread, List.nil_append, tokensFrom_of_feed hclose]
  rfl

end GroupedOptions.Json
