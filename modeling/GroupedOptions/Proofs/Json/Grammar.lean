import Mathlib
import GroupedOptions.Json
import GroupedOptions.Proofs.Json.Strings

/-!
# The grammar of a JSON text

A value has many texts: blanks may stand around every token, and strings have spellings of their
own. Of the numbers the integers are described here. The main statement is that a text is read as
the value that it spells.
-/
namespace GroupedOptions.Json

/-- Characters that may stand around any token. -/
def IsBlank (text : List Char) : Prop := ∀ c ∈ text, c ∈ [' ', '\t', '\n', '\r']

/-- The digits of a natural number, with no zero in front of others. -/
structure IsNumeral (digits : List Char) : Prop where
  ne_nil : digits ≠ []
  isDigit : ∀ c ∈ digits, c.isDigit = true
  zero_alone : digits.head? = some '0' → digits = ['0']

def Literal.integer (negative : Bool) (digits : List Char) : Literal := ⟨negative, digits, [], none⟩

mutual

/-- `Spells v text`: the text, which has no blanks around it, is one for the value. -/
inductive Spells : Json → List Char → Prop
  | null : Spells .null ['n', 'u', 'l', 'l']
  | true : Spells (.bool true) ['t', 'r', 'u', 'e']
  | false : Spells (.bool false) ['f', 'a', 'l', 's', 'e']
  | integer {negative digits} : IsNumeral digits →
      Spells (.number (.integer negative digits)) ((if negative then ['-'] else []) ++ digits)
  | string {s : String} {text} : SpellsText s.toList text →
      Spells (.string (some s)) ('"' :: text ++ ['"'])
  | emptyArray {blank} : IsBlank blank → Spells (.array []) ('[' :: blank ++ [']'])
  | array {items text} : SpellsItems items text → Spells (.array items) ('[' :: text ++ [']'])
  | emptyObject {blank} : IsBlank blank → Spells (.object []) ('\x7b' :: blank ++ ['\x7d'])
  | object {members text} : SpellsMembers members text →
      Spells (.object members) ('\x7b' :: text ++ ['\x7d'])

/-- One or more items with commas between them. -/
inductive SpellsItems : List Json → List Char → Prop
  | last {v before text after} : IsBlank before → Spells v text → IsBlank after →
      SpellsItems [v] (before ++ text ++ after)
  | more {v before text after vs rest} : IsBlank before → Spells v text → IsBlank after →
      SpellsItems vs rest → SpellsItems (v :: vs) (before ++ text ++ after ++ ',' :: rest)

/-- One or more members with commas between them. -/
inductive SpellsMembers : List (Option String × Json) → List Char → Prop
  | last {m text} : SpellsMember m text → SpellsMembers [m] text
  | more {m text ms rest} : SpellsMember m text → SpellsMembers ms rest →
      SpellsMembers (m :: ms) (text ++ ',' :: rest)

inductive SpellsMember : Option String × Json → List Char → Prop
  | member {key : String} {v before name between between' text after} : IsBlank before →
      SpellsText key.toList name → IsBlank between → IsBlank between' → Spells v text →
      IsBlank after →
      SpellsMember (some key, v)
        (before ++ ('"' :: name ++ '"' :: (between ++ ':' :: (between' ++ (text ++ after)))))

end

theorem isBlank_nil : IsBlank [] := nofun

/-- A member with no blanks around its name and its value. -/
theorem SpellsMember.tight {key : String} {name text : List Char} {v : Json}
    (hname : SpellsText key.toList name) (hv : Spells v text) :
    SpellsMember (some key, v) ('"' :: name ++ '"' :: ':' :: (text ++ [])) :=
  .member isBlank_nil hname isBlank_nil isBlank_nil hv isBlank_nil

theorem tokensFrom_blank {blank : List Char} (h : IsBlank blank) (rest : List Char) :
    tokensFrom .between (blank ++ rest) = tokensFrom .between rest := by
  induction blank with
  | nil => rfl
  | cons c blank ih =>
    have hc : c ∈ [' ', '\t', '\n', '\r'] := h c List.mem_cons_self
    have hstart : Mode.between.feed c = some ([], .between) := by
      simp only [List.mem_cons, List.not_mem_nil, or_false] at hc
      rcases hc with rfl | rfl | rfl | rfl <;> rfl
    rw [List.cons_append, tokensFrom_of_feed_nil hstart]
    exact ih fun d hd => h d (List.mem_cons_of_mem _ hd)

/-- What may come after a number or a word: nothing that would go on with it. -/
def Ends (rest : List Char) : Prop :=
  ∀ c ∈ rest.head?, c.isLower = false ∧ isNumeric c = false

/-- A number or a word is a token when it ends. -/
theorem tokensFrom_of_ends {mode : Mode} {token : Token} (htoken : mode.token? = some token)
    (hmode : ∀ c, c.isLower = false → isNumeric c = false →
      mode.feed c = Mode.feed.restart mode c) (hfinish : mode.finish = mode.token?.map ([·]))
    {rest : List Char} (hrest : Ends rest) :
    tokensFrom mode rest = (tokensFrom .between rest).map (token :: ·) := by
  cases rest with
  | nil =>
    have hend : tokensFrom .between [] = some [] := rfl
    rw [tokensFrom, hfinish, htoken, hend]
    rfl
  | cons c rest =>
    obtain ⟨hlower, hnumeric⟩ := hrest c rfl
    have hnext : tokensFrom .between (c :: rest) =
        (start c).bind fun result => (tokensFrom result.2 rest).map (result.1 ++ ·) := rfl
    rw [tokensFrom, hmode c hlower hnumeric, Mode.feed.restart, htoken, hnext]
    cases start c with
    | none => rfl
    | some result => simp [Function.comp_def]

/-- A word or a number goes on as long as its characters do. -/
theorem tokensFrom_run {mode : List Char → Mode} {cs : List Char}
    (h : ∀ c ∈ cs, ∀ run, (mode run).feed c = some ([], mode (run ++ [c]))) (run rest : List Char) :
    tokensFrom (mode run) (cs ++ rest) = tokensFrom (mode (run ++ cs)) rest := by
  induction cs generalizing run with
  | nil => rw [List.nil_append, List.append_nil]
  | cons c cs ih =>
    rw [List.cons_append, tokensFrom_of_feed_nil (h c List.mem_cons_self run),
      ih fun d hd => h d (List.mem_cons_of_mem c hd), List.append_assoc, List.singleton_append]

theorem tokensFrom_word {c : Char} {cs : List Char} {token : Token}
    (hstart : Mode.between.feed c = some ([], .word [c])) (hlower : cs.all Char.isLower = true)
    (h : word? (c :: cs) = some token) {rest : List Char} (hrest : Ends rest) :
    tokensFrom .between (c :: cs ++ rest) = (tokensFrom .between rest).map (token :: ·) := by
  have htoken : Mode.token? (.word (c :: cs)) = some token := h
  calc tokensFrom .between (c :: cs ++ rest)
    _ = tokensFrom (.word [c]) (cs ++ rest) := tokensFrom_of_feed_nil hstart _
    _ = tokensFrom (.word (c :: cs)) rest :=
      tokensFrom_run (fun d hd run => by simp [Mode.feed, List.all_eq_true.mp hlower d hd]) [c] rest
    _ = _ := tokensFrom_of_ends htoken (fun d hd _ => by simp [Mode.feed, hd]) rfl hrest

theorem start_of_isDigit {c : Char} (h : c.isDigit = true) : start c = some ([], .number [c]) := by
  have hne (d : Char) (hd : d.isDigit = false) : c ≠ d := by
    rintro rfl
    rw [h] at hd
    exact absurd hd (by decide)
  have hlower : c.isLower = false := by
    simp only [Char.isDigit, Char.isLower, Bool.and_eq_true, Bool.and_eq_false_iff,
      decide_eq_true_eq, decide_eq_false_iff_not, ge_iff_le, UInt32.le_iff_toNat_le] at h ⊢
    left
    exact fun hle => absurd (hle.trans h.2) (by decide)
  simp [start, isBlank, hne ' ' rfl, hne '\n' rfl, hne '\t' rfl, hne '\r' rfl, hlower, h]

theorem Literal.read?_integer (negative : Bool) {digits : List Char} (h : IsNumeral digits) :
    Literal.read? ((if negative then ['-'] else []) ++ digits) =
      some (.integer negative digits) := by
  have htake : digits.takeWhile Char.isDigit = digits := List.takeWhile_eq_self_iff.mpr h.isDigit
  have hdrop : digits.dropWhile Char.isDigit = [] := List.dropWhile_eq_nil_iff.mpr h.isDigit
  have hwhole : isWhole digits = true := by
    obtain ⟨c, cs, rfl⟩ := List.exists_cons_of_ne_nil h.ne_nil
    by_cases hc : c = '0'
    · subst hc
      simp [isWhole, List.cons.inj (h.zero_alone rfl)]
    · simp [isWhole, hc]
  cases negative with
  | true => simp [read?, htake, hdrop, hwhole, fraction?, integer]
  | false =>
    obtain ⟨c, cs, rfl⟩ := List.exists_cons_of_ne_nil h.ne_nil
    have hdash : c ≠ '-' := by
      rintro rfl
      exact absurd (h.isDigit '-' List.mem_cons_self) (by decide)
    simp [read?, hdash, htake, hdrop, hwhole, fraction?, integer]

theorem tokensFrom_integer (negative : Bool) {digits : List Char} (h : IsNumeral digits)
    {rest : List Char} (hrest : Ends rest) :
    tokensFrom .between ((if negative then ['-'] else []) ++ digits ++ rest) =
      (tokensFrom .between rest).map (.number (.integer negative digits) :: ·) := by
  have hrun (d : Char) (hd : d ∈ digits) (run : List Char) :
      Mode.feed (.number run) d = some ([], .number (run ++ [d])) := by
    simp [Mode.feed, isNumeric, h.isDigit d hd]
  have htoken : Mode.token? (.number ((if negative then ['-'] else []) ++ digits)) =
      some (.number (.integer negative digits)) := by
    rw [Mode.token?, Literal.read?_integer negative h]
    rfl
  refine Eq.trans ?_ (tokensFrom_of_ends htoken (fun d _ hd => by simp [Mode.feed, hd]) rfl hrest)
  cases negative with
  | true => exact (tokensFrom_of_feed_nil rfl _).trans (tokensFrom_run hrun ['-'] rest)
  | false =>
    obtain ⟨c, cs, rfl⟩ := List.exists_cons_of_ne_nil h.ne_nil
    have hc : Mode.between.feed c = some ([], .number [c]) :=
      start_of_isDigit (h.isDigit c List.mem_cons_self)
    exact (tokensFrom_of_feed_nil hc _).trans
      (tokensFrom_run (fun d hd => hrun d (List.mem_cons_of_mem c hd)) [c] rest)

/-- The value that the rest of a text completes. -/
def readFrom (expected : Expected) (text : List Char) : Option Json :=
  (tokensFrom .between text).bind (build expected)

theorem readFrom_blank {blank : List Char} (h : IsBlank blank) (expected : Expected)
    (rest : List Char) : readFrom expected (blank ++ rest) = readFrom expected rest := by
  rw [readFrom, tokensFrom_blank h, readFrom]

theorem readFrom_token {text rest : List Char} {token : Token}
    (h : tokensFrom .between text = (tokensFrom .between rest).map (token :: ·))
    (expected : Expected) :
    readFrom expected text = (expected.feed token).bind (readFrom · rest) := by
  rw [readFrom, h]
  cases hrest : tokensFrom .between rest with
  | none => simp [readFrom, hrest]
  | some tokens => simp [readFrom, hrest, build]

theorem readFrom_mark {c : Char} {token : Token} (h : start c = some ([token], .between))
    (expected : Expected) (rest : List Char) :
    readFrom expected (c :: rest) = (expected.feed token).bind (readFrom · rest) := by
  have hfeed : Mode.between.feed c = some ([token], .between) := h
  exact readFrom_token (tokensFrom_of_feed hfeed rest) expected

/-- A value may come next, within the given containers. -/
def Expected.TakesValue (expected : Expected) (frames : List Frame) : Prop :=
  ∀ token, token ≠ .closeArray → expected.feed token = valueToken? frames token

theorem takesValue_value (frames : List Frame) : (Expected.value frames).TakesValue frames :=
  fun _ _ => rfl

theorem takesValue_item (frames : List Frame) :
    (Expected.item frames).TakesValue (.array [] :: frames) := by
  intro token htoken
  cases token <;> first | rfl | exact absurd rfl htoken

/-- The name of a member may come next, after the given ones. -/
def Expected.TakesName (expected : Expected) (done : List (Option String × Json))
    (frames : List Frame) : Prop :=
  ∀ name, expected.feed (.string name) = some (.colon done name frames)

theorem takesName_member (frames : List Frame) : (Expected.member frames).TakesName [] frames :=
  fun _ => rfl

theorem takesName_key (done : List (Option String × Json)) (frames : List Frame) :
    (Expected.key done frames).TakesName done frames :=
  fun _ => rfl

theorem IsBlank.ends_append {blank : List Char} (h : IsBlank blank) {rest : List Char}
    (hrest : Ends rest) : Ends (blank ++ rest) := by
  cases blank with
  | nil => exact hrest
  | cons c blank =>
    rintro d ⟨⟩
    have hc : c ∈ [' ', '\t', '\n', '\r'] := h c List.mem_cons_self
    simp only [List.mem_cons, List.not_mem_nil, or_false] at hc
    rcases hc with rfl | rfl | rfl | rfl <;> exact ⟨rfl, rfl⟩

theorem ends_of_mem {c : Char} (h : c ∈ [',', ']', '\x7d']) (rest : List Char) :
    Ends (c :: rest) := by
  rintro d ⟨⟩
  simp only [List.mem_cons, List.not_mem_nil, or_false] at h
  rcases h with rfl | rfl | rfl <;> exact ⟨rfl, rfl⟩

-- The induction is on the length of the text: a container is longer than what it holds, while its
-- only item or the value of its only member may be as long as the whole, and comes first.

mutual

/-- A text is read as the value that it spells, wherever a value may come. -/
theorem Spells.readFrom_eq {v : Json} {text : List Char} (h : Spells v text)
    {expected : Expected} {frames : List Frame} (hexpected : expected.TakesValue frames)
    {rest : List Char} (hrest : Ends rest) :
    readFrom expected (text ++ rest) = readFrom (.after v frames) rest := by
  cases h with
  | null =>
    rw [readFrom_token (tokensFrom_word rfl rfl rfl hrest), hexpected .null nofun]
    rfl
  | true =>
    rw [readFrom_token (tokensFrom_word rfl rfl rfl hrest), hexpected (.bool true) nofun]
    rfl
  | false =>
    rw [readFrom_token (tokensFrom_word rfl rfl rfl hrest), hexpected (.bool false) nofun]
    rfl
  | integer hdigits =>
    rw [readFrom_token (tokensFrom_integer _ hdigits hrest), hexpected (.number _) nofun]
    rfl
  | string htext =>
    rw [List.append_assoc, List.singleton_append, readFrom_token (tokensFrom_string htext rest),
      hexpected (.string _) nofun]
    rfl
  | emptyArray hblank =>
    rw [List.append_assoc, List.singleton_append, List.cons_append, readFrom_mark rfl,
      hexpected .openArray nofun]
    refine (readFrom_blank hblank (.item frames) _).trans ?_
    rw [readFrom_mark rfl]
    rfl
  | array hitems =>
    rw [List.append_assoc, List.singleton_append, List.cons_append, readFrom_mark rfl,
      hexpected .openArray nofun]
    exact hitems.readFrom_eq (takesValue_item frames) rest
  | emptyObject hblank =>
    rw [List.append_assoc, List.singleton_append, List.cons_append, readFrom_mark rfl,
      hexpected .openObject nofun]
    refine (readFrom_blank hblank (.member frames) _).trans ?_
    rw [readFrom_mark rfl]
    rfl
  | object hmembers =>
    rw [List.append_assoc, List.singleton_append, List.cons_append, readFrom_mark rfl,
      hexpected .openObject nofun]
    exact hmembers.readFrom_eq (takesName_member frames) rest
termination_by 3 * text.length

theorem SpellsItems.readFrom_eq {items : List Json} {text : List Char} (h : SpellsItems items text)
    {expected : Expected} {done : List Json} {frames : List Frame}
    (hexpected : expected.TakesValue (.array done :: frames)) (rest : List Char) :
    readFrom expected (text ++ ']' :: rest) =
      readFrom (.after (.array (done ++ items)) frames) rest := by
  cases h with
  | last hbefore hv hafter =>
    have hends := hafter.ends_append (ends_of_mem (c := ']') (by decide) rest)
    rw [List.append_assoc, List.append_assoc, readFrom_blank hbefore,
      hv.readFrom_eq hexpected hends, readFrom_blank hafter, readFrom_mark rfl]
    rfl
  | @more v _ _ _ vs _ hbefore hv hafter hvs =>
    have hends (text : List Char) := hafter.ends_append (ends_of_mem (c := ',') (by decide) text)
    rw [List.append_assoc, List.append_assoc, List.append_assoc, List.cons_append,
      readFrom_blank hbefore, hv.readFrom_eq hexpected (hends _), readFrom_blank hafter,
      readFrom_mark rfl]
    refine (hvs.readFrom_eq (takesValue_value _) rest).trans ?_
    rw [List.append_assoc, List.singleton_append]
termination_by 3 * text.length + 1

theorem SpellsMembers.readFrom_eq {members : List (Option String × Json)} {text : List Char}
    (h : SpellsMembers members text) {expected : Expected} {done : List (Option String × Json)}
    {frames : List Frame} (hexpected : expected.TakesName done frames) (rest : List Char) :
    readFrom expected (text ++ '\x7d' :: rest) =
      readFrom (.after (.object (done ++ members)) frames) rest := by
  cases h with
  | last hm =>
    rw [hm.readFrom_eq hexpected (ends_of_mem (by decide) rest), readFrom_mark rfl]
    rfl
  | more hm hms =>
    rw [List.append_assoc, List.cons_append, hm.readFrom_eq hexpected (ends_of_mem (by decide) _),
      readFrom_mark rfl]
    refine (hms.readFrom_eq (takesName_key _ _) rest).trans ?_
    rw [List.append_assoc, List.singleton_append]
termination_by 3 * text.length + 2

theorem SpellsMember.readFrom_eq {m : Option String × Json} {text : List Char}
    (h : SpellsMember m text) {expected : Expected} {done : List (Option String × Json)}
    {frames : List Frame} (hexpected : expected.TakesName done frames) {rest : List Char}
    (hrest : Ends rest) : readFrom expected (text ++ rest) =
      readFrom (.after m.2 (.object done m.1 :: frames)) rest := by
  cases h with
  | @member key _ before name between between' text after hbefore hname hbetween hbetween' hv
      hafter =>
    calc readFrom expected (before ++ ('"' :: name ++
          '"' :: (between ++ ':' :: (between' ++ (text ++ after)))) ++ rest)
      _ = readFrom expected ('"' :: name ++
          '"' :: (between ++ ':' :: (between' ++ (text ++ (after ++ rest))))) := by
        rw [List.append_assoc, readFrom_blank hbefore]
        simp
      _ = readFrom (.colon done (some key) frames)
          (between ++ ':' :: (between' ++ (text ++ (after ++ rest)))) := by
        rw [readFrom_token (tokensFrom_string hname _), hexpected]
        rfl
      _ = readFrom (.value (.object done (some key) :: frames))
          (between' ++ (text ++ (after ++ rest))) := by
        rw [readFrom_blank hbetween, readFrom_mark rfl]
        rfl
      _ = readFrom (.after _ (.object done (some key) :: frames)) rest := by
        rw [readFrom_blank hbetween',
          hv.readFrom_eq (takesValue_value _) (hafter.ends_append hrest), readFrom_blank hafter]
termination_by 3 * text.length + 1

end

/-- A whole text may have blanks before and after its value. -/
inductive IsTextOf (v : Json) : List Char → Prop
  | blanks {before text after} : IsBlank before → Spells v text → IsBlank after →
      IsTextOf v (before ++ text ++ after)

/-- A whole text is read as the value that it spells. -/
theorem read?_of_isTextOf {v : Json} {text : String} (h : IsTextOf v text.toList) :
    read? text = some v := by
  have hread : read? text = readFrom (.value []) text.toList := rfl
  rw [hread]
  generalize text.toList = text at h
  cases h with
  | @blanks before inner after hbefore hv hafter =>
    have hends : Ends (after ++ []) := hafter.ends_append nofun
    calc readFrom (.value []) (before ++ inner ++ after)
      _ = readFrom (.value []) (inner ++ (after ++ [])) := by
        rw [List.append_assoc, readFrom_blank hbefore, List.append_nil]
      _ = readFrom (.after v []) (after ++ []) := hv.readFrom_eq (takesValue_value []) hends
      _ = readFrom (.after v []) [] := readFrom_blank hafter _ _
      _ = some v := rfl

end GroupedOptions.Json
