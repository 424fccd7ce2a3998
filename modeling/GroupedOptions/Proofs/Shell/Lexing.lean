import GroupedOptions.Shell

/-!
# How a shell reads text

The standard shell cuts a script into lexemes character by character. Quotes take the special
meaning from the characters within them: all of it within single quotes, and within double quotes
all but that of the dollar sign, the backquote and the backslash, which is an escape there before
few characters only. Expansions have a grammar of their own, so reading stops where one is active:
text that is read at all has none.
-/
namespace GroupedOptions.Shell

/-- A character of a word; where it is quoted it stands for itself whatever it is. -/
structure Piece where
  char : Char
  quoted : Bool
  deriving DecidableEq, Repr

abbrev Word := List Piece

def plain (cs : List Char) : Word := cs.map fun c => ⟨c, false⟩

def quoted (cs : List Char) : Word := cs.map fun c => ⟨c, true⟩

inductive Lexeme where
  | word (w : Word)
  | operator (spelling : String)
  /-- The digits right before a redirection, which say what is redirected. -/
  | descriptor (digits : Word)
  | newline
  deriving DecidableEq, Repr

def operatorMarks : List Char := ['&', '|', ';', '(', ')', '<', '>']

def longOperators : List String :=
  ["&&", "||", ";;", "<<", "<<-", "<&", "<>", ">>", ">&", ">|"]

/-- What has begun and may go on, outside of quotes. -/
inductive Begun where
  | nothing
  | operator (spelling : String)
  | word (w : Word)
  deriving DecidableEq, Repr

namespace Begun

/-- An operator goes on with every character that makes a longer operator of it. -/
def longer? : Begun → Char → Option String
  | operator op, c => if op.push c ∈ longOperators then some (op.push c) else none
  | _, _ => none

/-- The word that a further character belongs to, as far as it has come. -/
def wordSoFar : Begun → Word
  | word w => w
  | _ => []

def inWord : Begun → Bool
  | word _ => true
  | _ => false

def endedByWord : Begun → List Lexeme
  | operator op => [.operator op]
  | _ => []

/-- Whether the digits of a word may say what is redirected. -/
def isDescriptor (w : Word) : Bool := !w.isEmpty && w.all fun p => p.char.isDigit && !p.quoted

/-- What ends before a character that is not of a word, or before the end of the text. -/
def ended (next : Option Char) : Begun → List Lexeme
  | nothing => []
  | operator op => [.operator op]
  | word w =>
      if (next = some '<' ∨ next = some '>') ∧ isDescriptor w then [.descriptor w] else [.word w]

end Begun

/-- Where reading stands between two characters. -/
inductive LexState where
  | unquoted (begun : Begun)
  /-- After a backslash outside of quotes. -/
  | escaped (begun : Begun)
  | single (w : Word)
  | double (w : Word)
  /-- After a backslash within double quotes. -/
  | doubleEscaped (w : Word)
  | comment
  /-- In an expansion, with which reading stops. -/
  | expansion
  deriving DecidableEq, Repr

def escapable : List Char := ['$', '\x60', '"', '\\']

def feedUnquoted (begun : Begun) (c : Char) : List Lexeme × LexState :=
  match begun.longer? c with
  | some op => ([], .unquoted (.operator op))
  | none =>
      if c = '\\' then ([], .escaped begun)
      else if c = '\'' then (begun.endedByWord, .single begun.wordSoFar)
      else if c = '"' then (begun.endedByWord, .double begun.wordSoFar)
      else if c = '$' ∨ c = '\x60' then ([], .expansion)
      else if c = '\n' then (begun.ended none ++ [.newline], .unquoted .nothing)
      else if c = ' ' ∨ c = '\t' then (begun.ended none, .unquoted .nothing)
      else if c ∈ operatorMarks then
        (begun.ended (some c), .unquoted (.operator (String.singleton c)))
      else if c = '#' ∧ begun.inWord = false then (begun.endedByWord, .comment)
      else (begun.endedByWord, .unquoted (.word (begun.wordSoFar ++ [⟨c, false⟩])))

/-- What ends with a character, and where reading stands after it. A backslash and a line end
after it are left out, except within single quotes. -/
def feed : LexState → Char → List Lexeme × LexState
  | .unquoted begun, c => feedUnquoted begun c
  | .escaped begun, c =>
      if c = '\n' then ([], .unquoted begun)
      else (begun.endedByWord, .unquoted (.word (begun.wordSoFar ++ [⟨c, true⟩])))
  | .single w, c =>
      if c = '\'' then ([], .unquoted (.word w)) else ([], .single (w ++ [⟨c, true⟩]))
  | .double w, c =>
      if c = '"' then ([], .unquoted (.word w))
      else if c = '\\' then ([], .doubleEscaped w)
      else if c = '$' ∨ c = '\x60' then ([], .expansion)
      else ([], .double (w ++ [⟨c, true⟩]))
  | .doubleEscaped w, c =>
      if c = '\n' then ([], .double w)
      else if c ∈ escapable then ([], .double (w ++ [⟨c, true⟩]))
      else ([], .double (w ++ [⟨'\\', true⟩, ⟨c, true⟩]))
  | .comment, c => if c = '\n' then ([.newline], .unquoted .nothing) else ([], .comment)
  | .expansion, _ => ([], .expansion)

def feedAll : LexState → List Char → List Lexeme × LexState
  | state, [] => ([], state)
  | state, c :: cs =>
      let (now, next) := feed state c
      let (later, last) := feedAll next cs
      (now ++ later, last)

/-- What ends with the text, in which no quote may be open and nothing expanded. -/
def finish : LexState → Option (List Lexeme)
  | .unquoted begun => some (begun.ended none)
  | .comment => some []
  | _ => none

def lexemes? (text : String) : Option (List Lexeme) :=
  let (lexemes, last) := feedAll (.unquoted .nothing) text.toList
  (finish last).map (lexemes ++ ·)

theorem feedAll_append {state next last : LexState} {xs ys : List Char}
    {now later : List Lexeme} (hxs : feedAll state xs = (now, next))
    (hys : feedAll next ys = (later, last)) : feedAll state (xs ++ ys) = (now ++ later, last) := by
  induction xs generalizing state now with
  | nil =>
    cases hxs
    exact hys
  | cons x xs ih =>
    simp only [feedAll, Prod.mk.injEq] at hxs
    obtain ⟨rfl, hnext⟩ := hxs
    have hrest := ih (Prod.ext rfl hnext)
    simp only [List.cons_append, feedAll, hrest, List.append_assoc]

def IsOrdinary (c : Char) : Prop :=
  c ∉ ['\\', '\'', '"', '$', '\x60', '\n', ' ', '\t', '#'] ++ operatorMarks

instance (c : Char) : Decidable (IsOrdinary c) := inferInstanceAs (Decidable (¬ _))

theorem feedUnquoted_of_isOrdinary {c : Char} (h : IsOrdinary c) (begun : Begun)
    (hbegun : begun.longer? c = none) : feedUnquoted begun c =
      (begun.endedByWord, .unquoted (.word (begun.wordSoFar ++ [⟨c, false⟩]))) := by
  unfold IsOrdinary at h
  simp only [List.mem_append, List.mem_cons, List.not_mem_nil, or_false, not_or] at h
  simp [feedUnquoted, hbegun, h]

theorem feedAll_of_isOrdinary {cs : List Char} (h : ∀ c ∈ cs, IsOrdinary c) (w : Word) :
    feedAll (.unquoted (.word w)) cs = ([], .unquoted (.word (w ++ plain cs))) := by
  induction cs generalizing w with
  | nil => simp [feedAll, plain]
  | cons c cs ih =>
    have hfeed : feed (.unquoted (.word w)) c = ([], .unquoted (.word (w ++ [⟨c, false⟩]))) :=
      feedUnquoted_of_isOrdinary (h c List.mem_cons_self) (.word w) rfl
    have hrest := ih (fun d hd => h d (List.mem_cons_of_mem _ hd)) (w ++ [⟨c, false⟩])
    simp [feedAll, hfeed, hrest, plain]

theorem feedAll_nothing_of_isOrdinary {cs : List Char} (h : ∀ c ∈ cs, IsOrdinary c)
    (hne : cs ≠ []) :
    feedAll (.unquoted .nothing) cs = ([], .unquoted (.word (plain cs))) := by
  obtain ⟨c, cs, rfl⟩ := List.exists_cons_of_ne_nil hne
  have hfeed : feed (.unquoted .nothing) c = ([], .unquoted (.word [⟨c, false⟩])) :=
    feedUnquoted_of_isOrdinary (h c List.mem_cons_self) .nothing rfl
  have hrest := feedAll_of_isOrdinary (fun d hd => h d (List.mem_cons_of_mem _ hd)) [⟨c, false⟩]
  simp [feedAll, hfeed, hrest, plain]

end GroupedOptions.Shell
