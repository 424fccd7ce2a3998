import GroupedOptions.Proofs.Shell.Commands

/-!
# The positional arguments as a shell gets them back

The positional arguments are exported as one variable, each a word in single quotes, and the whole
is escaped for double quotes. A shell that sets the variable undoes the outer quotes, and evaluating
its value undoes the inner ones. What the outer quotes alter they alter within the inner ones, so
the words come apart where they were put together, and the main statement is that they are the
arguments exactly if there is nothing to alter in any of them.
-/
namespace GroupedOptions.Shell

/-- The characters that stand for something else in a word, unless they are quoted: files that match
a pattern, and the directories of users. -/
def expandable : List Char := ['*', '?', '[', '~']

/-- The text of a word, with its quotes gone. Where something is expanded it has none. -/
def Lexeme.text? : Lexeme → Option String
  | .word w =>
      if ∃ p ∈ w, p.quoted = false ∧ p.char ∈ expandable then none
      else some (String.ofList (w.map Piece.char))
  | _ => none

/-- The words of a text that is evaluated, in which there is nothing but words. -/
def words? (text : String) : Option (List String) :=
  (lexemes? text).bind (List.mapM Lexeme.text?)

/-- The words of a variable that is evaluated, from the text between the double quotes where it
is set. -/
def evaluated? (text : String) : Option (List String) :=
  (doubleQuoted? text.toList).bind fun value => words? (String.ofList value)

def shownWord (word : String) : String := String.ofList (shown word.toList)

theorem Lexeme.text?_word_quoted (word : String) :
    (Lexeme.word (quoted word.toList)).text? = some word := by
  have hquoted : ¬ ∃ p ∈ quoted word.toList, p.quoted = false ∧ p.char ∈ expandable := by
    rintro ⟨p, hp, hfalse, _⟩
    obtain ⟨c, _, rfl⟩ := List.mem_map.mp hp
    cases hfalse
  have hchars : (quoted word.toList).map Piece.char = word.toList := by
    simp [quoted, Function.comp_def]
  rw [Lexeme.text?, if_neg hquoted, hchars, String.ofList_toList]

theorem words?_quoteAll (words : List String) : words? (quoteAll words) = some words := by
  obtain ⟨lexemes, begun, hfeed, _, hwords⟩ := exists_feedAll_quoteAll words
  have hlexemes : lexemes? (quoteAll words) =
      some (words.map fun word => .word (quoted word.toList)) := by
    simp [lexemes?, hfeed, finish, hwords]
  rw [words?, hlexemes, Option.bind_some]
  clear hfeed hwords hlexemes
  induction words with
  | nil => rfl
  | cons word words ih => simp [Lexeme.text?_word_quoted, ih]

@[simp] theorem shown_append (xs ys : List Char) : shown (xs ++ ys) = shown xs ++ shown ys :=
  List.flatMap_append

/-- Neither a single quote nor the backslash before it is altered, so it makes no difference which
of the two ways of quoting is undone first. -/
theorem shown_quoteChar (c : Char) : shown (quoteChar c) = (shownChar c).flatMap quoteChar := by
  by_cases haltered : c ∈ altered
  · simp only [altered, List.mem_cons, List.not_mem_nil, or_false] at haltered
    rcases haltered with rfl | rfl | rfl | rfl <;> decide
  · rw [shownChar_of_not_mem haltered, List.flatMap_singleton]
    by_cases hquote : c = '\''
    · subst hquote
      decide
    · rw [quoteChar, if_neg hquote]
      exact shown_eq_self_iff.mpr (by simpa using haltered)

theorem shown_quote (word : String) :
    shown (quote word).toList = (quote (shownWord word)).toList := by
  have hchars : shown (word.toList.flatMap quoteChar) =
      (shown word.toList).flatMap quoteChar := calc
    _ = word.toList.flatMap fun c => shown (quoteChar c) := List.flatMap_assoc
    _ = word.toList.flatMap fun c => (shownChar c).flatMap quoteChar := by
      simp only [shown_quoteChar]
    _ = (shown word.toList).flatMap quoteChar := List.flatMap_assoc.symm
  have hmark : shown ['\''] = ['\''] := by decide
  calc shown (quote word).toList
    _ = shown (['\''] ++ (word.toList.flatMap quoteChar ++ ['\''])) := by simp [quote]
    _ = ['\''] ++ ((shown word.toList).flatMap quoteChar ++ ['\'']) := by
      rw [shown_append, shown_append, hchars, hmark]
    _ = (quote (shownWord word)).toList := by simp [quote, shownWord]

theorem shown_quoteAll (words : List String) :
    shown (quoteAll words).toList = (quoteAll (words.map shownWord)).toList := by
  induction words with
  | nil => rfl
  | cons word words ih =>
    cases words with
    | nil => simpa [quoteAll] using shown_quote word
    | cons next words =>
      have hspace : shown " ".toList = " ".toList := by decide
      simp only [quoteAll, List.map_cons, String.intercalate_cons_cons, String.toList_append,
        shown_append, shown_quote, hspace] at ih ⊢
      rw [ih]

theorem shownWord_eq_self_iff {word : String} :
    shownWord word = word ↔ ∀ c ∈ word.toList, c ∉ altered := by
  rw [← shown_eq_self_iff, shownWord, ← String.toList_inj, String.toList_ofList]

theorem evaluated?_escape_quoteAll (words : List String) :
    evaluated? (escape (quoteAll words)) = some (words.map shownWord) := by
  rw [evaluated?, doubleQuoted?_escape, Option.bind_some, shown_quoteAll, String.ofList_toList,
    words?_quoteAll]

/-- The positional arguments stand in the script as one variable in double quotes, right before the
line that sets the arguments. Evaluating its value gives as many words as there are positional
arguments, each as double quotes alone would show it. These are the positional arguments exactly if
none of them has an exclamation mark, a line end, a return or a tab. -/
theorem evaluated?_positionals (m : Matches) (argv : ArgVec) (varPrefix : String) :
    (∃ before, script m argv varPrefix =
      before ++ ("export " ++ (varPrefix ++ "POSITIONALS") ++ "=\"" ++
        escape (quoteAll m.positionals) ++ "\"\n") ++ setLine (argv.toList.drop 1)) ∧
      evaluated? (escape (quoteAll m.positionals)) = some (m.positionals.map shownWord) ∧
      (evaluated? (escape (quoteAll m.positionals)) = some m.positionals ↔
        ∀ word ∈ m.positionals, ∀ c ∈ word.toList, c ∉ altered) := by
  refine ⟨⟨_, rfl⟩, evaluated?_escape_quoteAll m.positionals, ?_⟩
  rw [evaluated?_escape_quoteAll, Option.some_inj]
  calc m.positionals.map shownWord = m.positionals
    _ ↔ m.positionals.map shownWord = m.positionals.map id := by rw [List.map_id]
    _ ↔ ∀ word ∈ m.positionals, shownWord word = word := List.map_inj_left
    _ ↔ ∀ word ∈ m.positionals, ∀ c ∈ word.toList, c ∉ altered :=
      forall₂_congr fun _ _ => shownWord_eq_self_iff

/-- A word without characters is one, and a quote, a dollar sign and a backslash are read back, but
an exclamation mark is not. -/
example :
    evaluated? "'it'\\\\''s' '' '\\$HOME\\\\'" = some ["it's", "", "$HOME\\"] ∧
      escape (quoteAll ["it's", "", "$HOME\\"]) = "'it'\\\\''s' '' '\\$HOME\\\\'" ∧
      evaluated? (escape (quoteAll ["stop!"])) = some ["stop\\!"] := by
  decide

end GroupedOptions.Shell
