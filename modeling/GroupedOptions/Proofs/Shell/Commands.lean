import Mathlib
import GroupedOptions.Proofs.Shell.Quoting

/-!
# Scripts as a shell reads them

A script is read as commands once its lexemes are grouped by lines. Every line that the writer
makes is one command, which a shell reads in the same way whatever lines stand before and after
it: an export of one variable, the new arguments, or the report of an error and the exit. Names are
written without quotes and made of ordinary characters, and everything else is quoted.
-/
namespace GroupedOptions.Shell

/-- A redirection of what the descriptor names, or of the usual one for the operator. -/
structure Redirection where
  descriptor : Option Word
  operator : String
  target : Word
  deriving DecidableEq, Repr

/-- A simple command: its words, assignments among them, and its redirections. -/
structure Command where
  words : List Word
  redirections : List Redirection
  deriving DecidableEq, Repr

/-- The operators that redirect to or from the word after them. Those that take the lines after
the command are not among them. -/
def redirectionOperators : List String := ["<", "<&", "<>", ">", ">>", ">&", ">|"]

/-- The words that begin no simple command when they come first and have no quotes. -/
def reservedWords : List String :=
  ["!", "\x7b", "\x7d", "case", "do", "done", "elif", "else", "esac", "fi", "for", "if", "in",
    "then", "until", "while"]

namespace Command

def empty : Command := ⟨[], []⟩

def ended (c : Command) : List Command := if c = empty then [] else [c]

def withWord (c : Command) (w : Word) : Command := { c with words := c.words ++ [w] }

def withRedirection (c : Command) (r : Redirection) : Command :=
  { c with redirections := c.redirections ++ [r] }

end Command

/-- The commands of lexemes that go on with a command. Only simple commands one after the other
are read, and no others. -/
def commandsFrom : Command → List Lexeme → Option (List Command)
  | c, [] => some c.ended
  | c, .newline :: rest => (commandsFrom .empty rest).map (c.ended ++ ·)
  | c, .word w :: rest =>
      if c.words = [] ∧ ∃ s ∈ reservedWords, w = plain s.toList then none
      else commandsFrom (c.withWord w) rest
  | c, .descriptor digits :: .operator op :: .word target :: rest =>
      if op ∈ redirectionOperators then
        commandsFrom (c.withRedirection ⟨some digits, op, target⟩) rest
      else none
  | c, .operator op :: rest =>
      if op = ";" then
        if c = .empty then none else (commandsFrom .empty rest).map (c.ended ++ ·)
      else if op ∈ redirectionOperators then
        match rest with
        | .word target :: rest => commandsFrom (c.withRedirection ⟨none, op, target⟩) rest
        | _ => none
      else none
  | _, _ => none

/-- The commands of a script, in which all quotes are closed and nothing is expanded. -/
def commands? (text : String) : Option (List Command) :=
  (lexemes? text).bind (commandsFrom .empty)

/-- A text is read as whole commands, whatever lexemes come after it. -/
def ReadsAs (text : List Char) (commands : List Command) : Prop :=
  ∃ lexemes, feedAll (.unquoted .nothing) text = (lexemes, .unquoted .nothing) ∧
    ∀ rest, commandsFrom .empty (lexemes ++ rest) =
      (commandsFrom .empty rest).map (commands ++ ·)

theorem ReadsAs.nil : ReadsAs [] [] := ⟨[], rfl, fun rest => by simp⟩

theorem ReadsAs.append {text text' : List Char} {commands commands' : List Command}
    (h : ReadsAs text commands) (h' : ReadsAs text' commands') :
    ReadsAs (text ++ text') (commands ++ commands') := by
  obtain ⟨lexemes, hfeed, hcommands⟩ := h
  obtain ⟨lexemes', hfeed', hcommands'⟩ := h'
  refine ⟨lexemes ++ lexemes', feedAll_append hfeed hfeed', fun rest => ?_⟩
  rw [List.append_assoc, hcommands, hcommands', Option.map_map]
  simp [Function.comp_def, List.append_assoc]

theorem ReadsAs.flatMap {α : Type} {text : α → List Char} {command : α → Command} {items : List α}
    (h : ∀ item ∈ items, ReadsAs (text item) [command item]) :
    ReadsAs (items.flatMap text) (items.map command) := by
  induction items with
  | nil => exact .nil
  | cons item items ih =>
    have hrest := ih fun other hmem => h other (List.mem_cons_of_mem _ hmem)
    exact (h item List.mem_cons_self).append hrest

theorem ReadsAs.commands?_eq {text : String} {commands : List Command}
    (h : ReadsAs text.toList commands) : commands? text = some commands := by
  obtain ⟨lexemes, hfeed, hcommands⟩ := h
  have hall := hcommands []
  rw [List.append_nil] at hall
  simp [commands?, lexemes?, hfeed, finish, Begun.ended, hall, commandsFrom, Command.ended]

theorem commandsFrom_first {w : Word} (h : ∀ s ∈ reservedWords, w ≠ plain s.toList)
    (rest : List Lexeme) :
    commandsFrom .empty (.word w :: rest) = commandsFrom (Command.empty.withWord w) rest := by
  rw [commandsFrom, if_neg]
  rintro ⟨_, s, hs, heq⟩
  exact h s hs heq

theorem commandsFrom_next {c : Command} (h : c.words ≠ []) (w : Word) (rest : List Lexeme) :
    commandsFrom c (.word w :: rest) = commandsFrom (c.withWord w) rest := by
  rw [commandsFrom, if_neg]
  exact fun hreserved => h hreserved.1

@[simp] theorem Command.words_withWord (c : Command) (w : Word) :
    (c.withWord w).words = c.words ++ [w] := rfl

theorem Command.ended_of_words_ne_nil {c : Command} (h : c.words ≠ []) : c.ended = [c] := by
  unfold Command.ended
  rw [if_neg]
  rintro rfl
  exact h rfl

theorem commandsFrom_words {c : Command} (hc : c.words ≠ []) (words : List Word)
    (rest : List Lexeme) : commandsFrom c (words.map .word ++ .newline :: rest) =
      (commandsFrom .empty rest).map (⟨c.words ++ words, c.redirections⟩ :: ·) := by
  induction words generalizing c with
  | nil => simp [commandsFrom, Command.ended_of_words_ne_nil hc]
  | cons w words ih =>
    rw [List.map_cons, List.cons_append, commandsFrom_next hc, ih (by simp)]
    simp [Command.withWord]

/-- A line of words is one command, unless the first word is reserved. -/
theorem readsAs_words {text : List Char} {first : Word} {words : List Word}
    (hfirst : ∀ s ∈ reservedWords, first ≠ plain s.toList)
    (h : feedAll (.unquoted .nothing) text =
      ((first :: words).map .word ++ [.newline], .unquoted .nothing)) :
    ReadsAs text [⟨first :: words, []⟩] := by
  refine ⟨_, h, fun rest => ?_⟩
  rw [List.map_cons, List.cons_append, List.cons_append, commandsFrom_first hfirst,
    List.append_assoc]
  exact commandsFrom_words (by simp) words rest

/-- The command that exports `text`, as double quotes show it, under `name`. -/
def exportCommand (name text : String) : Command :=
  ⟨[plain "export".toList, plain (name ++ "=").toList ++ quoted (shown text.toList)], []⟩

theorem readsAs_exportLine {name : String} (hname : ∀ c ∈ name.toList, IsOrdinary c)
    (text : String) : ReadsAs (exportLine name text).toList [exportCommand name text] := by
  have hexport : feedAll (.unquoted .nothing) "export ".toList =
      ([.word (plain "export".toList)], .unquoted .nothing) := by decide
  have hassign : ∀ c ∈ (name ++ "=").toList, IsOrdinary c := by
    intro c hc
    rw [String.toList_append, List.mem_append] at hc
    rcases hc with hc | hc
    · exact hname c hc
    · rw [List.mem_singleton.mp hc]
      decide
  have hopen (w : Word) : feedAll (.unquoted (.word w)) ['"'] = ([], .double w) := rfl
  have hclose (w : Word) : feedAll (.double w) ['"', '\n'] =
      ([.word w, .newline], .unquoted .nothing) := rfl
  have hline := feedAll_append hexport <|
    feedAll_append (feedAll_nothing_of_isOrdinary hassign (by simp)) <|
      feedAll_append (hopen _) <|
        feedAll_append (feedAll_double (doubleQuoted?_escape text) _) (hclose _)
  refine readsAs_words (by decide) ?_
  simpa [exportLine, quoted] using hline

/-- The command that makes `words` the arguments of the shell. -/
def setCommand (words : List String) : Command :=
  ⟨plain "set".toList :: plain "--".toList :: words.map fun word => quoted word.toList, []⟩

/-- Quoted words with a space between two of them are read back one by one. -/
theorem exists_feedAll_quoteAll (words : List String) : ∃ lexemes begun,
    feedAll (.unquoted .nothing) (quoteAll words).toList = (lexemes, .unquoted begun) ∧
      (∀ c, begun.longer? c = none) ∧
      lexemes ++ begun.ended none = words.map fun word => .word (quoted word.toList) := by
  induction words with
  | nil => exact ⟨[], .nothing, rfl, fun _ => rfl, rfl⟩
  | cons word words ih =>
    have hword := feedAll_quote word (show Begun.nothing.longer? '\'' = none from rfl)
    cases words with
    | nil =>
      refine ⟨[], .word (quoted word.toList), ?_, fun _ => rfl, rfl⟩
      simpa [quoteAll, Begun.endedByWord, Begun.wordSoFar] using hword
    | cons next words =>
      obtain ⟨lexemes, begun, hfeed, hlonger, hwords⟩ := ih
      have hspace (w : Word) : feedAll (.unquoted (.word w)) [' '] =
          ([.word w], .unquoted .nothing) := rfl
      have hall := feedAll_append hword (feedAll_append (hspace _) hfeed)
      refine ⟨.word (quoted word.toList) :: lexemes, begun, ?_, hlonger, ?_⟩
      · simpa [quoteAll, String.intercalate_cons_cons, Begun.endedByWord, Begun.wordSoFar]
          using hall
      · rw [List.cons_append, hwords]
        rfl

theorem readsAs_setLine (words : List String) :
    ReadsAs (setLine words).toList [setCommand words] := by
  refine readsAs_words (by decide) ?_
  cases words with
  | nil => decide
  | cons word words =>
    have hset : feedAll (.unquoted .nothing) "set -- ".toList =
        ([.word (plain "set".toList), .word (plain "--".toList)], .unquoted .nothing) := by decide
    obtain ⟨lexemes, begun, hfeed, hlonger, hwords⟩ := exists_feedAll_quoteAll (word :: words)
    have hline : feedAll (.unquoted begun) ['\n'] =
        (begun.ended none ++ [.newline], .unquoted .nothing) := by
      simp [feedAll, feed, feedUnquoted, hlonger]
    have hall := feedAll_append hset (feedAll_append hfeed hline)
    rw [← List.append_assoc lexemes, hwords] at hall
    simpa [setLine, Function.comp_def] using hall

def reportCommand (message : String) : Command :=
  ⟨[plain "echo".toList, quoted ("gopt: ".toList ++ shown message.toList)],
    [⟨none, ">&", plain "2".toList⟩]⟩

def exitCommand : Command := ⟨[plain "exit".toList, plain "1".toList], []⟩

theorem readsAs_errorScript (message : String) :
    ReadsAs (errorScript message).toList [reportCommand message, exitCommand] := by
  have hecho : feedAll (.unquoted .nothing) "echo \"".toList =
      ([.word (plain "echo".toList)], .double []) := by decide
  have hmessage : doubleQuoted? ("gopt: ".toList ++ (escape message).toList) =
      some ("gopt: ".toList ++ shown message.toList) := by
    simp [doubleQuoted?_escape, doubleQuoted?, escapable]
  have hclose (w : Word) : feedAll (.double w) "\" >&2\n".toList =
      ([.word w, .operator ">&", .word (plain "2".toList), .newline], .unquoted .nothing) := rfl
  have hline := feedAll_append hecho (feedAll_append (feedAll_double hmessage _) (hclose _))
  have hreport : ReadsAs ("echo \"".toList ++ ("gopt: ".toList ++ (escape message).toList ++
      "\" >&2\n".toList)) [reportCommand message] := by
    refine ⟨_, hline, fun rest => ?_⟩
    simp only [List.cons_append, List.nil_append]
    rw [commandsFrom_first (by decide), commandsFrom_next (by simp)]
    rfl
  have hexit : ReadsAs "exit 1\n".toList [exitCommand] := readsAs_words (by decide) (by decide)
  simpa [errorScript] using hreport.append hexit

/-- A character that may stand anywhere in an identifier but in front. -/
def isIdentifierChar (c : Char) : Bool := c.isAlphanum || c = '_'

theorem isOrdinary_of_isIdentifierChar {c : Char} (h : isIdentifierChar c) : IsOrdinary c := by
  intro hmem
  have hnone : (['\\', '\'', '"', '$', '\x60', '\n', ' ', '\t', '#'] ++ operatorMarks).all
      (!isIdentifierChar ·) := by decide
  simpa [h] using List.all_eq_true.mp hnone c hmem

/-- A character of a variable name as the writer makes it. -/
def isNameChar (c : Char) : Bool := c.isUpper || c.isDigit || c = '_'

theorem isNameChar_variableChar (c : Char) : isNameChar (variableChar c) := by
  unfold variableChar
  split
  next h =>
    by_cases halpha : c.isAlpha
    · simp [isNameChar, halpha]
    · have hlower : ¬ c.isLower := by
        intro hlower
        simp [Char.isAlpha, hlower] at halpha
      have hdigit : c.isDigit := by simpa [Char.isAlphanum, halpha] using h
      simp [isNameChar, Char.toUpper_eq_of_not_isLower hlower, hdigit]
  next => decide

theorem isIdentifierChar_of_isNameChar {c : Char} (h : isNameChar c) : isIdentifierChar c := by
  simp only [isNameChar, Bool.or_eq_true, decide_eq_true_eq] at h
  rcases h with (hupper | hdigit) | hunderscore
  · simp [isIdentifierChar, Char.isAlphanum, Char.isAlpha, hupper]
  · simp [isIdentifierChar, Char.isAlphanum, hdigit]
  · simp [isIdentifierChar, hunderscore]

theorem isOrdinary_of_isNameChar {c : Char} (h : isNameChar c) : IsOrdinary c :=
  isOrdinary_of_isIdentifierChar (isIdentifierChar_of_isNameChar h)

theorem isOrdinary_of_all_isNameChar {name : String} (h : name.toList.all isNameChar) :
    ∀ c ∈ name.toList, IsOrdinary c :=
  fun c hc => isOrdinary_of_isNameChar (List.all_eq_true.mp h c hc)

theorem isOrdinary_of_mem_variableName {name : String} {c : Char}
    (h : c ∈ (variableName name).toList) : IsOrdinary c := by
  rw [variableName, String.toList_ofList] at h
  obtain ⟨d, _, rfl⟩ := List.mem_map.mp h
  exact isOrdinary_of_isNameChar (isNameChar_variableChar d)

/-- Under a prefix of ordinary characters the script of a parse is an export for every recorded
name, the export of the positional arguments, and the command that sets the arguments. -/
theorem readsAs_script (m : Matches) (argv : ArgVec) {varPrefix : String}
    (hplain : ∀ c ∈ varPrefix.toList, IsOrdinary c) :
    ReadsAs (script m argv varPrefix).toList
      ((m.values.entries.map fun e =>
          exportCommand (varPrefix ++ variableName e.1) e.2.display) ++
        [exportCommand (varPrefix ++ "POSITIONALS") (quoteAll m.positionals),
          setCommand (argv.toList.drop 1)]) := by
  have hname {name : String} (h : ∀ c ∈ name.toList, IsOrdinary c) :
      ∀ c ∈ (varPrefix ++ name).toList, IsOrdinary c := by
    intro c hc
    rw [String.toList_append, List.mem_append] at hc
    exact hc.elim (hplain c) (h c)
  have hexport (e : String × Value) :
      ReadsAs (exportLine (varPrefix ++ variableName e.1) e.2.display).toList
        [exportCommand (varPrefix ++ variableName e.1) e.2.display] :=
    readsAs_exportLine (hname fun _ => isOrdinary_of_mem_variableName) _
  have hexports := ReadsAs.flatMap fun e (_ : e ∈ m.values.entries) => hexport e
  have hsuffix : ∀ c ∈ "POSITIONALS".toList, IsOrdinary c :=
    isOrdinary_of_all_isNameChar (by decide)
  have hpositionals := readsAs_exportLine (hname hsuffix) (quoteAll m.positionals)
  have hall := hexports.append (hpositionals.append (readsAs_setLine (argv.toList.drop 1)))
  simpa [script, List.flatMap_map] using hall

/-- The script of a parse is read as one export for every recorded name, the export of the
positional arguments, and the command that sets the arguments to the rebuilt ones, each
character of which is quoted. The script of an error is read as its report and the exit. -/
theorem commands?_script :
    (∀ (m : Matches) (argv : ArgVec), commands? (script m argv "GOPT_") =
      some ((m.values.entries.map fun e =>
          exportCommand ("GOPT_" ++ variableName e.1) e.2.display) ++
        [exportCommand "GOPT_POSITIONALS" (quoteAll m.positionals),
          setCommand (argv.toList.drop 1)])) ∧
      ∀ message, commands? (errorScript message) = some [reportCommand message, exitCommand] := by
  refine ⟨fun m argv => ?_, fun message => (readsAs_errorScript message).commands?_eq⟩
  have hplain : ∀ c ∈ "GOPT_".toList, IsOrdinary c := isOrdinary_of_all_isNameChar (by decide)
  exact (readsAs_script m argv hplain).commands?_eq

end GroupedOptions.Shell
