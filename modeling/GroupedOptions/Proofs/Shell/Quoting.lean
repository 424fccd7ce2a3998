import GroupedOptions.Proofs.Shell.Lexing

/-!
# Quoted text as a shell reads it

The writer puts a backslash before each character that a shell could take for something else
within double quotes. Of the eight characters that it writes in this way the shell reads four back;
the backslash before an exclamation mark and the letters of a line end, a return and a tab stay as
they are written. Single quotes give every text back.
-/
namespace GroupedOptions.Shell

/-- What the text between double quotes stands for. A backslash is an escape before some
characters only, and a line end after one is left out; a text in which the quotes would end or
something would be expanded stands for none. -/
def doubleQuoted? : List Char → Option (List Char)
  | [] => some []
  | '\\' :: c :: rest =>
      if c = '\n' then doubleQuoted? rest
      else if c ∈ escapable then (doubleQuoted? rest).map (c :: ·)
      else (doubleQuoted? rest).map fun cs => '\\' :: c :: cs
  | c :: rest => if c ∈ escapable then none else (doubleQuoted? rest).map (c :: ·)

theorem feedAll_double {text cs : List Char} (h : doubleQuoted? text = some cs) (w : Word) :
    feedAll (.double w) text = ([], .double (w ++ quoted cs)) := by
  fun_induction doubleQuoted? text generalizing cs w with
  | case1 =>
    cases h
    simp [feedAll, quoted]
  | case2 rest ih => simp [feedAll, feed, ih h]
  | case3 c rest hline hescape ih =>
    obtain ⟨ds, hds, rfl⟩ := Option.map_eq_some_iff.mp h
    simp [feedAll, feed, hline, hescape, ih hds, quoted]
  | case4 c rest hline hescape ih =>
    obtain ⟨ds, hds, rfl⟩ := Option.map_eq_some_iff.mp h
    simp [feedAll, feed, hline, hescape, ih hds, quoted]
  | case5 => cases h
  | case6 c rest hnot hescape ih =>
    obtain ⟨ds, hds, rfl⟩ := Option.map_eq_some_iff.mp h
    simp only [escapable, List.mem_cons, List.not_mem_nil, or_false, not_or] at hescape
    simp [feedAll, feed, hescape, ih hds, quoted]

/-- What a character that is escaped for double quotes is read back as. -/
def shownChar (c : Char) : List Char :=
  match c with
  | '!' => ['\\', '!']
  | '\n' => ['\\', 'n']
  | '\r' => ['\\', 'r']
  | '\t' => ['\\', 't']
  | c => [c]

def shown (cs : List Char) : List Char := cs.flatMap shownChar

theorem doubleQuoted?_cons {c : Char} (h : c ∉ escapable) (rest : List Char) :
    doubleQuoted? (c :: rest) = (doubleQuoted? rest).map (c :: ·) := by
  rw [doubleQuoted?, if_neg h]
  rintro _ _ rfl
  exact absurd (by decide) h

theorem doubleQuoted?_escapeChar_append (c : Char) (rest : List Char) :
    doubleQuoted? (escapeChar c ++ rest) = (doubleQuoted? rest).map (shownChar c ++ ·) := by
  unfold escapeChar
  split
  case h_9 hdollar hquote hbackslash hdouble hbang hline hreturn htab =>
    have hc : c ∉ escapable := by
      simp only [escapable, List.mem_cons, List.not_mem_nil, or_false, not_or]
      exact ⟨hdollar, hquote, hdouble, hbackslash⟩
    have hshown : shownChar c = [c] := by simp [shownChar]
    rw [hshown]
    exact doubleQuoted?_cons hc rest
  all_goals simp [doubleQuoted?, escapable, shownChar]

theorem doubleQuoted?_escape (text : String) :
    doubleQuoted? (escape text).toList = some (shown text.toList) := by
  have h : ∀ cs : List Char, doubleQuoted? (cs.flatMap escapeChar) = some (shown cs) := by
    intro cs
    induction cs with
    | nil => rfl
    | cons c cs ih =>
      rw [List.flatMap_cons, doubleQuoted?_escapeChar_append, ih]
      simp [shown]
  simpa [escape] using h text.toList

/-- The characters that are escaped in a way that is not read back. -/
def altered : List Char := ['!', '\n', '\r', '\t']

theorem shownChar_of_not_mem {c : Char} (h : c ∉ altered) : shownChar c = [c] := by
  simp only [altered, List.mem_cons, List.not_mem_nil, or_false, not_or] at h
  simp [shownChar, h]

theorem shown_eq_self_iff {cs : List Char} : shown cs = cs ↔ ∀ c ∈ cs, c ∉ altered := by
  induction cs with
  | nil => simp [shown]
  | cons c cs ih =>
    by_cases hc : c ∈ altered
    · have hne : shown (c :: cs) ≠ c :: cs := by
        simp only [altered, List.mem_cons, List.not_mem_nil, or_false] at hc
        rcases hc with rfl | rfl | rfl | rfl <;> simp [shown, shownChar]
      simp [hne, hc]
    · have hshown : shown (c :: cs) = c :: shown cs := by
        simp [shown, shownChar_of_not_mem hc]
      simp [hshown, ih, hc]

/-- A recorded value stands in the script in double quotes, and a shell reads its text back with
a backslash before each exclamation mark and with a line end, a return or a tab spelled as a
backslash and a letter. That is the text of the value exactly if it has none of the four. -/
theorem doubleQuoted?_exported (m : Matches) (argv : ArgVec) (varPrefix : String) {name : String}
    {v : Value} (h : m.get? name = some v) :
    (∃ before after, script m argv varPrefix =
      before ++ ("export " ++ (varPrefix ++ variableName name) ++ "=\"" ++ escape v.display ++
        "\"\n") ++ after) ∧
      doubleQuoted? (escape v.display).toList = some (shown v.display.toList) ∧
      (doubleQuoted? (escape v.display).toList = some v.display.toList ↔
        ∀ c ∈ v.display.toList, c ∉ altered) := by
  refine ⟨?_, doubleQuoted?_escape v.display, ?_⟩
  · obtain ⟨entries, entries', hentries, _⟩ := List.lookup_eq_some_iff.mp h
    let line (e : String × Value) := exportLine (varPrefix ++ variableName e.1) e.2.display
    refine ⟨String.join (entries.map line), String.join (entries'.map line) ++
      (exportLine (varPrefix ++ "POSITIONALS") (quoteAll m.positionals) ++
        setLine (argv.toList.drop 1)), ?_⟩
    simp [script, hentries, line, exportLine, String.append_assoc]
  · rw [doubleQuoted?_escape, Option.some_inj, shown_eq_self_iff]

theorem doubleQuoted?_exported_command :
    let v := Value.str "\x60say \"$HOME\"\x60\\"
    let m := Matches.empty.record "cmd" v
    m.get? "cmd" = some v ∧
      escape v.display = "\\\x60say \\\"\\$HOME\\\"\\\x60\\\\" ∧
      doubleQuoted? (escape v.display).toList = some v.display.toList := by
  intro v m
  have h : m.get? "cmd" = some v := by decide
  have hsame : ∀ c ∈ v.display.toList, c ∉ altered := shown_eq_self_iff.mp (by decide)
  exact ⟨h, by decide, (doubleQuoted?_exported m (.ofList ["prog"]) "GOPT_" h).2.2.mpr hsame⟩

/-- A value with an exclamation mark and a line end is not read back. -/
theorem doubleQuoted?_exported_ne :
    let v := Value.str "stop!\nnow"
    let m := Matches.empty.record "x" v
    script m (.ofList ["prog"]) "GOPT_" =
        "export GOPT_X=\"stop\\!\\nnow\"\nexport GOPT_POSITIONALS=\"\"\nset --\n" ∧
      doubleQuoted? "stop\\!\\nnow".toList = some "stop\\!\\nnow".toList ∧
      "stop\\!\\nnow" ≠ v.display := by
  decide

/-- A single quote leaves the quotes, stands there after a backslash, and the quotes go on. -/
theorem feedAll_flatMap_quoteChar (cs : List Char) (w : Word) :
    feedAll (.single w) (cs.flatMap quoteChar) = ([], .single (w ++ quoted cs)) := by
  induction cs generalizing w with
  | nil => simp [feedAll, quoted]
  | cons c cs ih =>
    have hchar : feedAll (.single w) (quoteChar c) = ([], .single (w ++ [⟨c, true⟩])) := by
      by_cases hc : c = '\''
      · subst hc
        simp [quoteChar, feedAll, feed, feedUnquoted, Begun.longer?, Begun.endedByWord,
          Begun.wordSoFar]
      · simp [quoteChar, feedAll, feed, hc]
    rw [List.flatMap_cons, feedAll_append hchar (ih _)]
    simp [quoted]

/-- A text in single quotes is read back as it is, and goes on with the word before it. -/
theorem feedAll_quote (word : String) {begun : Begun} (h : begun.longer? '\'' = none) :
    feedAll (.unquoted begun) (quote word).toList =
      (begun.endedByWord, .unquoted (.word (begun.wordSoFar ++ quoted word.toList))) := by
  have hopen : feedAll (.unquoted begun) ['\''] =
      (begun.endedByWord, .single begun.wordSoFar) := by
    simp [feedAll, feed, feedUnquoted, h]
  have hclose (w : Word) : feedAll (.single w) ['\''] = ([], .unquoted (.word w)) := by
    simp [feedAll, feed]
  have hquote := feedAll_append hopen
    (feedAll_append (feedAll_flatMap_quoteChar word.toList _) (hclose _))
  simpa [quote] using hquote

end GroupedOptions.Shell
