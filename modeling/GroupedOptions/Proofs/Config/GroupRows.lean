import GroupedOptions.Proofs.Config.Compiled
import GroupedOptions.Proofs.NormalForm
import GroupedOptions.Proofs.Continuation
import GroupedOptions.Proofs.OptionSet.Recording
import GroupedOptions.Proofs.Origin

/-!
# Rows for the fields of groups

Flags and the fields of groups are looked up in one table, and what keeps them apart is the dash
that a flag begins with. A row under a template without one is for the fields of groups alone,
unless the name before the space of its template is empty: then every token matches. The main
statements are that a parse is the same with the other rows in a table of their own for the flags,
and which configurations have a row that is for all tokens.
-/
namespace GroupedOptions

namespace Template

variable {t : Template} {token : String}

def isDashed (t : Template) : Bool := t.text.toList.head? == some '-'

/-- A template with nothing before its space, so that every token begins with its stem. -/
def isNameless (t : Template) : Bool := t.parts?.any fun p => p.stem.isEmpty

theorem isNameless_iff : t.isNameless = true ↔ ∃ p, t.parts? = some p ∧ p.stem = [] := by
  simp [isNameless, Option.any_eq_true]

/-- Such a template takes every token for one of its own, and finds no value in it. -/
theorem match?_of_isNameless (h : t.isNameless = true) (token : String) :
    t.match? token = some 0 := by
  obtain ⟨p, hp, hstem⟩ := isNameless_iff.mp h
  have hname : p.name = [] := by
    cases hs : p.spaced <;> simp_all [Parts.stem]
  rw [match?_of_stem hp (hstem ▸ List.nil_prefix), hname]
  rfl

theorem head?_of_isNameless (h : t.isNameless = true) : t.text.toList.head? = some ' ' := by
  obtain ⟨p, hp, hstem⟩ := isNameless_iff.mp h
  cases hs : p.spaced with
  | false => simp [Parts.stem, hs] at hstem
  | true =>
    have hname : p.name = [] := by simpa [Parts.stem, hs] using hstem
    rw [toList_text_of_parts? hp, hname, List.nil_append, Parts.mark, hs]
    rfl

theorem match?_eq_none_of_shape_eq_flag (hs : Shape.of token = .flag)
    (hdash : t.isDashed = false) (hname : t.isNameless = false) : t.match? token = none := by
  obtain ⟨cs, hcs, _⟩ := Shape.of_eq_flag_iff.mp hs
  rw [Option.eq_none_iff_forall_ne_some]
  intro sep hmatch
  obtain ⟨p, hp, hstem, _⟩ | ⟨htext, _⟩ := match?_cases hmatch
  · cases hl : p.stem with
    | nil => simp [isNameless_iff.mpr ⟨p, hp, hl⟩] at hname
    | cons c rest =>
      rw [hl, hcs, List.cons_prefix_cons] at hstem
      have htext : p.stem <+: t.text.toList := stem_prefix_text hp
      obtain ⟨more, hmore⟩ := htext
      simp [isDashed, ← hmore, hl, hstem.1] at hdash
  · simp [isDashed, htext, hcs] at hdash

end Template

variable {D : Type}

namespace Table

variable (t : Table D)

def flagRows : Table D :=
  { t with rows := t.rows.filter fun row => row.templ.isDashed || row.templ.isNameless }

theorem lookup_flagRows {token : String} (h : Shape.of token = .flag) :
    t.flagRows.lookup token = t.lookup token := by
  unfold lookup flagRows
  rw [List.filterMap_filter]
  refine List.filterMap_congr fun row _ => ?_
  split
  next => rfl
  next hrow =>
    obtain ⟨hdash, hname⟩ : row.templ.isDashed = false ∧ row.templ.isNameless = false := by
      simpa using hrow
    simp [Row.hit?, Template.match?_eq_none_of_shape_eq_flag h hdash hname]

/-- The table in which a token is looked up, where flags have one of their own. -/
def inCharge (flags groups : Table D) : Cursor D → String → Table D
  | .options, token => if Shape.of token = .flag then flags else groups
  | _, _ => groups

def feedAllApart (flags groups : Table D) : Cursor D → List String → List (Step D) × Cursor D
  | cursor, [] => ([], cursor)
  | cursor, token :: tokens =>
      let (now, next) := (inCharge flags groups cursor token).feed cursor token
      let (later, last) := feedAllApart flags groups next tokens
      (now ++ later, last)

def stepsApart (flags groups : Table D) (cursor : Cursor D) (tokens : List String) :
    List (Step D) :=
  (feedAllApart flags groups cursor tokens).1 ++ close (feedAllApart flags groups cursor tokens).2

/-- One token: only a flag is looked up among fewer rows, and there it finds the same. -/
theorem feed_inCharge (cursor : Cursor D) (token : String) :
    (inCharge t.flagRows t cursor token).feed cursor token = t.feed cursor token := by
  cases cursor with
  | operands | awaitingGroup | awaitingValue _ _ _ _ => rfl
  | options =>
    by_cases h : Shape.of token = .flag
    · have hopt := optionSteps_congr (t.lookup_flagRows h) .output
      simp only [inCharge, if_pos h]
      simp only [feed, h, hopt]
    · simp only [inCharge, if_neg h]

theorem feedAllApart_eq (cursor : Cursor D) (tokens : List String) :
    feedAllApart t.flagRows t cursor tokens = t.feedAll cursor tokens := by
  induction tokens generalizing cursor with
  | nil => rfl
  | cons token tokens ih => simp only [feedAllApart, feedAll, t.feed_inCharge, ih]

end Table

/-- A parse that looks flags up in a table of their own, and the fields of groups in another. -/
def parseApart (flags groups : Table D) (callback : Option (Callback D)) (data : D)
    (args : ArgVec) : Outcome D :=
  match args.toList with
  | [] => ⟨data, [], .ok .empty⟩
  | program :: tokens =>
      .ofRun ((Progress.start data program).run callback
        (Table.stepsApart flags groups .options tokens))

theorem parseApart_eq (t : Table D) (callback : Option (Callback D)) (data : D) (args : ArgVec) :
    parseApart t.flagRows t callback data args = parse t callback data args := by
  unfold parseApart
  cases hargs : args.toList with
  | nil => simp only [parse, hargs]
  | cons program tokens =>
    rw [parse_eq_ofRun hargs]
    simp only [Table.stepsApart, Table.steps, t.feedAllApart_eq]

namespace OptionDecl

variable {d : OptionDecl} {row : Row Matches} {key : Key}

theorem isNameless_of_mem_rows {index : ℕ} (hfault : d.fault? index = none)
    (hrow : row ∈ d.rows key) (h : row.templ.isNameless = true) : d.templ.isNameless = true := by
  cases d with
  | toggle t name =>
    obtain ⟨hon, hoff⟩ := parts?_of_fault?_eq_none hfault
    rcases List.mem_pair.mp hrow with rfl | rfl
    · simp [Template.isNameless, hon] at h
    · simp [Template.isNameless, hoff] at h
  | flag _ _ _ | value _ _ | set _ _ _ | keep _ | discard _ =>
    rw [List.mem_singleton.mp hrow] at h
    exact h

/-- A toggle has its mark in front, so what is declared without a name stands for a row of that
template. -/
theorem exists_row_of_isNameless {index : ℕ} (hfault : d.fault? index = none)
    (h : d.templ.isNameless = true) (key : Key) : ∃ row ∈ d.rows key, row.templ = d.templ := by
  cases d with
  | toggle t name =>
    have hhead : t.text.toList.head? = some ' ' := Template.head?_of_isNameless h
    have hnone : Table.afterNegation? t.text.toList = none := by
      unfold Table.afterNegation?
      split
      next heq => simp [heq] at hhead
      next => rfl
    have hkind := eq_none_of_ite_some (eq_none_of_ite_some (eq_none_of_ite_some hfault))
    simp [isToggle, hnone] at hkind
  | flag _ _ _ | value _ _ | set _ _ _ | keep _ | discard _ =>
    exact ⟨_, List.mem_singleton_self _, rfl⟩

end OptionDecl

namespace Config

variable {c : Config} {s : OptionSet}

/-- The flag rows of a compiled set are those under a dash, unless a template is declared that has
nothing before its space. -/
theorem isDashed_flagRows_iff (h : c.compile = .ok s) :
    (∀ row ∈ s.table.flagRows.rows, row.templ.isDashed = true) ↔
      ∀ d ∈ c.options, d.templ.isNameless = false := by
  constructor
  · intro hdashed d hd
    rw [Bool.eq_false_iff]
    intro hname
    obtain ⟨index, hfault⟩ := fault?_eq_none_of_compile h hd
    obtain ⟨key, hrows⟩ := exists_rows_subset h hd
    obtain ⟨row, hrow, htempl⟩ := OptionDecl.exists_row_of_isNameless hfault hname key
    have hflag : row ∈ s.table.flagRows.rows := by
      refine List.mem_filter.mpr ⟨hrows hrow, ?_⟩
      simp [htempl, hname]
    have hdash := hdashed row hflag
    rw [htempl, Template.isDashed, Template.head?_of_isNameless hname] at hdash
    exact absurd hdash (by decide)
  · intro hnamed row hrow
    obtain ⟨hmem, hflag⟩ := List.mem_filter.mp hrow
    obtain hdash | hname := Bool.or_eq_true_iff.mp hflag
    · exact hdash
    · obtain ⟨d, hd, key, hrow, _⟩ := exists_decl_of_mem_rows h hmem
      obtain ⟨index, hfault⟩ := fault?_eq_none_of_compile h hd
      have hdecl := OptionDecl.isNameless_of_mem_rows hfault hrow hname
      exact absurd hdecl (Bool.eq_false_iff.mp (hnamed d hd))

/-- A parse with a compiled set is the same with flags looked up in a table of their own, where of
the rows under templates without a dash there are only those with nothing before their space. There
is no such row unless one is declared, and it is given every token. -/
theorem parse_eq_parseApart (h : c.compile = .ok s) :
    (∀ callback data args, parse s.table callback data args =
        parseApart s.table.flagRows s.table callback data args) ∧
      ((∀ row ∈ s.table.flagRows.rows, row.templ.isDashed = true) ↔
        ∀ d ∈ c.options, d.templ.isNameless = false) ∧
      ∀ row ∈ s.table.rows, row.templ.isNameless = true → ∀ token,
        ⟨row, 0⟩ ∈ s.table.lookup token := by
  refine ⟨fun callback data args => ?_, isDashed_flagRows_iff h, ?_⟩
  · exact (parseApart_eq s.table callback data args).symm
  · intro row hrow hname token
    exact s.table.mem_lookup.mpr ⟨hrow, Template.match?_of_isNameless hname token⟩

theorem parse_eq_parseApart_uid :
    let c : Config :=
      ⟨none, none, [.value ⟨"uid=%u"⟩ none, .flag ⟨"-v"⟩ none .keep, .toggle ⟨"[no]exec"⟩ none],
        .keep, .keep⟩
    ∃ s, c.compile = .ok s ∧
      s.table.rows.map (·.templ.text) = ["uid=%u", "-v", "exec", "noexec"] ∧
      s.table.flagRows.rows.map (·.templ.text) = ["-v"] ∧
      (∀ row ∈ s.table.flagRows.rows, row.templ.isDashed = true) ∧
      ∀ callback data args, parse s.table callback data args =
        parseApart s.table.flagRows s.table callback data args := by
  intro c
  have h : c.compile = .ok c.declared := compile_eq_ok_iff.mpr ⟨by decide, rfl⟩
  obtain ⟨happart, hdashed, _⟩ := parse_eq_parseApart h
  exact ⟨_, h, by decide, by decide, hdashed.mpr (by decide), happart⟩

/-- The only row is under ` %s`, which begins with a space, and it counts the flag `-v`. -/
theorem counts_flag_of_isNameless :
    let c : Config := ⟨none, none, [.flag ⟨" %s"⟩ (some "any") .keep], .keep, .keep⟩
    ∃ s m out, c.compile = .ok s ∧ s.table.rows.map (·.templ) = [⟨" %s"⟩] ∧
      s.parse (.ofList ["prog", "-v"]) = .ok (m, out) ∧ m.get? "any" = some (.uint 1) := by
  intro c
  let s := c.declared
  let m : Matches := Matches.empty.record "any" (.uint 1)
  have h : c.compile = .ok s := compile_eq_ok_iff.mpr ⟨by decide, rfl⟩
  have hfold : (s.table.steps .options ["-v"]).foldlM s.recordStep .empty = .ok m := by
    decide +kernel
  have hparse : ∃ out, s.parse (.ofList ["prog", "-v"]) = .ok (m, out) :=
    OptionSet.exists_parse_eq_ok_iff.mpr hfold
  obtain ⟨out, hparse⟩ := hparse
  exact ⟨s, m, out, h, by decide, hparse, by decide⟩

end Config

end GroupedOptions
