import GroupedOptions.Proofs.Config.Compiled
import GroupedOptions.Proofs.Continuation
import GroupedOptions.Proofs.Origin

/-!
# From declarations to the callback

A configuration compiles if each of its declarations passes the check at its place, and the first
that does not is the reason why it fails. The rows come from the declarations and the keys from a
counter, and a token goes from a row to the callback by its key alone. The main statement is that
the key leads back to the declaration: the token is recorded under its name and follows its policy,
and no parse hands over a token under a key that the callback does not know.
-/
namespace GroupedOptions

theorem getElem?_zipIdx_eq_some_iff {α : Type} {l : List α} {a : α} {place index : ℕ} :
    l.zipIdx[place]? = some (a, index) ↔ l[place]? = some a ∧ index = place := by
  simp [List.getElem?_zipIdx, eq_comm]

theorem findSome?_zipIdx_eq_some_iff {α β : Type} {l : List α} {f : α × ℕ → Option β} {b : β} :
    l.zipIdx.findSome? f = some b ↔ ∃ (index : ℕ) (a : α), l[index]? = some a ∧
      f (a, index) = some b ∧
        ∀ earlier < index, ∀ a', l[earlier]? = some a' → f (a', earlier) = none := by
  rw [List.findSome?_eq_some_iff]
  constructor
  · rintro ⟨before, ⟨a, index⟩, after, hzip, hb, hnone⟩
    have hplace : l.zipIdx[before.length]? = some (a, index) := by simp [hzip]
    obtain ⟨ha, rfl⟩ := getElem?_zipIdx_eq_some_iff.mp hplace
    refine ⟨_, a, ha, hb, fun earlier hlt a' ha' => hnone _ ?_⟩
    have hbefore := getElem?_zipIdx_eq_some_iff.mpr ⟨ha', rfl⟩
    rw [hzip, List.getElem?_append_left hlt] at hbefore
    exact List.mem_of_getElem? hbefore
  · rintro ⟨index, a, ha, hb, hnone⟩
    have hplace := getElem?_zipIdx_eq_some_iff.mpr ⟨ha, rfl⟩
    obtain ⟨hlt, hget⟩ := List.getElem?_eq_some_iff.mp hplace
    refine ⟨l.zipIdx.take index, (a, index), l.zipIdx.drop (index + 1), ?_, hb, ?_⟩
    · rw [← hget, List.getElem_cons_drop, List.take_append_drop]
    · rintro ⟨a', earlier⟩ hmem
      obtain ⟨place, hearlier⟩ := List.getElem?_of_mem hmem
      rw [List.getElem?_take, Option.ite_none_right_eq_some] at hearlier
      obtain ⟨ha', rfl⟩ := getElem?_zipIdx_eq_some_iff.mp hearlier.2
      exact hnone _ hearlier.1 _ ha'

namespace Config

variable {c : Config} {s : OptionSet} {e : ConfigError}

/-- The first fault of the first declaration that has one at its place. -/
def firstFault? (c : Config) : Option ConfigError :=
  c.options.zipIdx.findSome? fun (d, index) => d.fault? index

theorem validate_eq (c : Config) : c.validate = c.firstFault?.elim (.ok ()) .error := by
  unfold validate firstFault?
  cases c.options.zipIdx.findSome? fun (d, index) => d.fault? index <;> rfl

theorem firstFault?_eq_some_iff : c.firstFault? = some e ↔
    ∃ (index : ℕ) (d : OptionDecl), c.options[index]? = some d ∧ d.fault? index = some e ∧
      ∀ earlier < index, ∀ d', c.options[earlier]? = some d' → d'.fault? earlier = none :=
  findSome?_zipIdx_eq_some_iff

theorem firstFault?_eq_none_iff : c.firstFault? = none ↔
    ∀ (index : ℕ) (d : OptionDecl), c.options[index]? = some d → d.fault? index = none := by
  rw [firstFault?, List.findSome?_eq_none_iff]
  constructor
  · intro h index d hd
    exact h (d, index) (List.mk_mem_zipIdx_iff_getElem?.mpr hd)
  · rintro h ⟨d, index⟩ hmem
    exact h index d (List.mk_mem_zipIdx_iff_getElem?.mp hmem)

theorem compile_eq_error_iff : c.compile = .error (.error e) ↔ c.firstFault? = some e := by
  unfold compile
  rw [validate_eq]
  cases c.firstFault? with
  | some e' => simp
  | none => cases c.options.foldlM OptionSet.declare (OptionSet.ofConfig c) <;> simp

/-- With fewer declarations than keys no declaration is left without one. -/
theorem exists_compile_eq_ok_iff (hlength : c.options.length < 2 ^ 31) :
    (∃ s, c.compile = .ok s) ↔ c.firstFault? = none := by
  obtain ⟨s, hs⟩ : ∃ s, c.options.foldlM OptionSet.declare (OptionSet.ofConfig c) = some s :=
    (OptionSet.ofConfig_consists c).2.exists_foldlM_declare
      (by simpa [OptionSet.ofConfig] using hlength)
  simp only [compile_eq_ok_iff, hs, validate_eq]
  cases c.firstFault? <;> simp

end Config

section Calls

variable {D : Type} {callback : Option (Callback D)} {s : Progress D} {call : Call}

@[simp] theorem Progress.calls_keep (s : Progress D) (place : Place) (token : String) :
    (s.keep place token).calls = s.calls := by
  cases place <;> rfl

/-- A turn comes of an offer under a key that does not pass by the callback. -/
theorem exists_offer_of_take {step : Step D}
    (h : call ∈ (Outcome.ofRun (s.take callback step)).calls) :
    call ∈ s.calls ∨ ∃ place, step = .offer call.key place call.token ∧
      call.key ≠ .discard ∧ call.key ≠ .keep := by
  cases step with
  | offer key place token =>
    simp only [Progress.take, Progress.offer] at h
    split at h
    next => exact .inl h
    next hdiscard =>
    split at h
    next => exact .inl (by simpa [Outcome.ofRun] using h)
    next hkeep =>
    cases callback with
    | none => exact .inl (by simpa [Outcome.ofRun] using h)
    | some f =>
      -- Whatever the verdict, the turn has been taken down.
      have hcalls : call ∈ s.calls ++ [⟨token, key, s.out⟩] := by
        simp only at h
        split at h
        next => exact h
        next => exact h
        next => simpa [Outcome.ofRun] using h
      rcases List.mem_append.mp hcalls with hcall | hcall
      · exact .inl hcall
      · cases List.mem_singleton.mp hcall
        exact .inr ⟨place, rfl, hdiscard, hkeep⟩
  | store field token v =>
    left
    simp only [Progress.take] at h
    split at h <;> exact h
  | separator | fail error => exact .inl h

theorem exists_offer_of_run {steps : List (Step D)}
    (h : call ∈ (Outcome.ofRun (s.run callback steps)).calls) :
    call ∈ s.calls ∨ ∃ place, .offer call.key place call.token ∈ steps ∧
      call.key ≠ .discard ∧ call.key ≠ .keep := by
  induction steps generalizing s with
  | nil => exact .inl h
  | cons step steps ih =>
    have hnow {call : Call} (hcall : call ∈ (Outcome.ofRun (s.take callback step)).calls) :
        call ∈ s.calls ∨ ∃ place, .offer call.key place call.token ∈ step :: steps ∧
          call.key ≠ .discard ∧ call.key ≠ .keep := by
      obtain hold | ⟨place, rfl, hfree⟩ := exists_offer_of_take hcall
      · exact .inl hold
      · exact .inr ⟨place, List.mem_cons_self, hfree⟩
    cases htake : s.take callback step with
    | error failure =>
      rw [htake] at hnow
      rw [Progress.run, htake] at h
      exact hnow h
    | ok s' =>
      rw [htake] at hnow
      rw [Progress.run, htake] at h
      obtain hold | ⟨place, hmem, hfree⟩ := ih h
      · exact hnow hold
      · exact .inr ⟨place, List.mem_cons_of_mem _ hmem, hfree⟩

end Calls

theorem Hit.dest_of_stepWith_eq_offer {D : Type} {hit : Hit D} {place place' : Place}
    {token token' value : String} {key : Key}
    (h : hit.stepWith place token value = .offer key place' token') : hit.row.dest = .key key := by
  unfold stepWith step at h
  split at h
  next k hdest =>
    cases h
    exact hdest
  next => split at h <;> cases h

/-- A key row that does not pass by the callback is that of a flag. -/
theorem OptionDecl.exists_flag_of_mem_rows {d : OptionDecl} {k key : Key} {row : Row Matches}
    (hrow : row ∈ d.rows k) (hdest : row.dest = .key key) (hdiscard : key ≠ .discard)
    (hkeep : key ≠ .keep) : k = key ∧ ∃ t given policy, d = .flag t given policy := by
  cases d with
  | flag t given policy =>
    cases List.mem_singleton.mp hrow
    cases hdest
    exact ⟨rfl, t, given, policy, rfl⟩
  | keep t =>
    cases List.mem_singleton.mp hrow
    cases hdest
    exact absurd rfl hkeep
  | discard t =>
    cases List.mem_singleton.mp hrow
    cases hdest
    exact absurd rfl hdiscard
  | value _ _ | set _ _ _ =>
    cases List.mem_singleton.mp hrow
    cases hdest
  | toggle _ _ => rcases List.mem_pair.mp hrow with rfl | rfl <;> cases hdest

namespace OptionSet

variable {s : OptionSet} {entries : List (OptionDecl × Key)}

/-- A token that is handed over under the key is counted under the name and under no other, and goes
on as the policy says. If the count overflows nothing is recorded. -/
structure CountsUnder (s : OptionSet) (key : Key) (name : String) (policy : Policy) (m : Matches)
    (token : String) (out : List String) : Prop where
  recorded : ∀ count, nextCount? m name = some count →
    s.dispatch m token key out =
        ⟨m.record name (.uint count), out, policy.verdict "unexpected option" token⟩ ∧
      (s.dispatch m token key out).data.get? name = some (.uint count) ∧
      ∀ other, other ≠ name → (s.dispatch m token key out).data.get? other = m.get? other
  overflow : nextCount? m name = none → s.dispatch m token key out = ⟨m, out, .error .overflow⟩

/-- The set is there for the declarations, each with the key of its row. The rows are theirs in
their order, of which a toggle has two. The keys of flags are distinct and unreserved; under such a
key the callback counts a token for the name of that flag and follows its policy, and it is handed
no option under any other key than these, except for those that no row matches. -/
structure Serves (s : OptionSet) (entries : List (OptionDecl × Key)) : Prop where
  rows : s.table.rows = entries.flatMap fun e => e.1.rows e.2
  toggle_text : ∀ t given key, (.toggle t given, key) ∈ entries →
    t.text = "[no]" ++ Table.toggleName t.text
  nodup : ((entries.filterMap fun e => e.1.flag? e.2).map Prod.fst).Nodup
  unreserved : ∀ t given policy key, (.flag t given policy, key) ∈ entries →
    key.isReserved = false
  dispatch : ∀ t given policy key, (.flag t given policy, key) ∈ entries →
    ∀ name, (OptionDecl.flag t given policy).name? = some name → ∀ m token out,
      s.CountsUnder key name policy m token out
  calls : ∀ m args, ∀ call ∈ (GroupedOptions.parse s.table (some s.dispatch) m args).calls,
    call.key = .positional ∨ call.key = .unmatched ∨
      ∃ t given policy, (.flag t given policy, call.key) ∈ entries

theorem countsUnder_of_lookup {key : Key} {flag : Flag} (hfree : key.IsFree)
    (hlookup : s.flags.lookup key = some flag) (m : Matches) (token : String)
    (out : List String) : s.CountsUnder key flag.name flag.policy m token out := by
  obtain ⟨hunmatched, hpositional, _, _⟩ := hfree
  constructor
  · intro count hcount
    have hdispatch : s.dispatch m token key out =
        ⟨m.record flag.name (.uint count), out, flag.policy.verdict "unexpected option" token⟩ := by
      simp only [dispatch, if_neg hpositional, if_neg hunmatched, hlookup, hcount]
    refine ⟨hdispatch, ?_, fun other hne => ?_⟩
    · rw [hdispatch, Matches.get?_record, if_pos rfl]
    · rw [hdispatch, Matches.get?_record, if_neg hne]
  · intro hcount
    simp only [dispatch, if_neg hpositional, if_neg hunmatched, hlookup, hcount]

theorem Consists.mem_flags (h : s.Consists entries) {t : Template} {given : Option String}
    {policy : Policy} {key : Key} (hmem : (.flag t given policy, key) ∈ entries) {name : String}
    (hname : (OptionDecl.flag t given policy).name? = some name) :
    (key, ⟨name, policy⟩) ∈ s.flags := by
  rw [h.flags, List.mem_filterMap]
  exact ⟨_, hmem, by simp [OptionDecl.flag?, hname]⟩

/-- Every turn of the callback is for a positional argument, for an unmatched option, or under the
key of a flag. -/
theorem Consists.key_of_mem_calls (h : s.Consists entries) (m : Matches) (args : ArgVec)
    {call : Call} (hcall : call ∈ (GroupedOptions.parse s.table (some s.dispatch) m args).calls) :
    call.key = .positional ∨ call.key = .unmatched ∨
      ∃ t given policy, (.flag t given policy, call.key) ∈ entries := by
  obtain ⟨token, key, out⟩ := call
  cases hargs : args.toList with
  | nil => simp [GroupedOptions.parse, hargs] at hcall
  | cons program tokens =>
    rw [parse_eq_ofRun hargs] at hcall
    obtain hstart | ⟨place, hmem, hdiscard, hkeep⟩ := exists_offer_of_run hcall
    · cases hstart
    have hgives := Table.gives_of_mem_steps hmem
    generalize hstep : Step.offer key place token = step at hgives
    cases hgives with
    | positional _ =>
      cases hstep
      exact .inl rfl
    | unmatched _ _ =>
      cases hstep
      exact .inr (.inl rfl)
    | hit _ hlookup =>
      have hdest := Hit.dest_of_stepWith_eq_offer hstep.symm
      have hrow := (s.table.mem_lookup.mp hlookup).1
      rw [h.rows, List.mem_flatMap] at hrow
      obtain ⟨⟨d, k⟩, he, hrow⟩ := hrow
      obtain ⟨rfl, t, given, policy, rfl⟩ :=
        OptionDecl.exists_flag_of_mem_rows hrow hdest hdiscard hkeep
      exact .inr (.inr ⟨t, given, policy, he⟩)
    | separator | invalidGroup _ | missingValue _ _ | missingGroup _ => cases hstep

end OptionSet

namespace Config

variable {c : Config} {s : OptionSet}

theorem exists_serves (h : c.compile = .ok s) :
    ∃ entries, entries.map Prod.fst = c.options ∧ s.Serves entries := by
  obtain ⟨entries, hentries, hconsists, hkeys⟩ := exists_consists h
  have hdecl {d : OptionDecl} {key : Key} (he : (d, key) ∈ entries) : d ∈ c.options := by
    rw [← hentries]
    exact List.mem_map_of_mem he
  refine ⟨entries, hentries, hconsists.rows, ?_, ?_, ?_, ?_, ?_⟩
  · intro t given key he
    obtain ⟨index, hfault⟩ := fault?_eq_none_of_compile h (hdecl he)
    exact OptionDecl.text_of_fault?_eq_none hfault
  · rw [← hconsists.flags]
    exact hkeys.nodup
  · intro t given policy key he
    exact hkeys.isReserved (hconsists.mem_flags he rfl)
  · intro t given policy key he name hname
    have hmem := hconsists.mem_flags he hname
    obtain ⟨hfree, hlookup⟩ := hkeys.lookup_of_mem hmem
    exact OptionSet.countsUnder_of_lookup hfree hlookup
  · intro m args call hcall
    exact hconsists.key_of_mem_calls m args hcall

/-- A configuration compiles exactly if every declaration passes the check at its place, and fails
otherwise with the fault of the first that does not. In what it compiles to, each declaration has
its rows in their order and each flag a key of its own, under which the callback records its tokens
and follows its policy, and no parse hands over a token under a key that is none of those. -/
theorem compile_serves (c : Config) (hlength : c.options.length < 2 ^ 31) :
    ((∃ s, c.compile = .ok s) ↔
        ∀ (index : ℕ) (d : OptionDecl), c.options[index]? = some d → d.fault? index = none) ∧
      (∀ e, c.compile = .error (.error e) ↔
        ∃ (index : ℕ) (d : OptionDecl), c.options[index]? = some d ∧ d.fault? index = some e ∧
          ∀ earlier < index, ∀ d', c.options[earlier]? = some d' → d'.fault? earlier = none) ∧
      ∀ s, c.compile = .ok s → ∃ entries, entries.map Prod.fst = c.options ∧ s.Serves entries := by
  refine ⟨?_, fun e => ?_, fun s h => exists_serves h⟩
  · rw [exists_compile_eq_ok_iff hlength, firstFault?_eq_none_iff]
  · rw [compile_eq_error_iff, firstFault?_eq_some_iff]

/-- Two flags and a toggle between them. The key of the first leads back to its name. -/
theorem compile_serves_two_flags :
    let c : Config := ⟨none, none, [.flag ⟨"-v"⟩ (some "verbose") .keep,
      .toggle ⟨"[no]atime"⟩ none, .flag ⟨"-q"⟩ none .discard], .keep, .error⟩
    let m := Matches.empty.record "q" (.uint 4)
    c.options.length < 2 ^ 31 ∧ ∃ s, c.compile = .ok s ∧
      s.table.rows.map (·.templ.text) = ["-v", "atime", "noatime", "-q"] ∧
      s.flags = [(⟨0⟩, ⟨"verbose", .keep⟩), (⟨1⟩, ⟨"q", .discard⟩)] ∧
      (∃ entries, entries.map Prod.fst = c.options ∧ s.Serves entries) ∧
      (s.dispatch m "-v" ⟨0⟩ ["prog"]).data.get? "verbose" = some (.uint 1) ∧
      (s.dispatch m "-v" ⟨0⟩ ["prog"]).data.get? "q" = some (.uint 4) ∧
      (s.dispatch m "-v" ⟨0⟩ ["prog"]).verdict = .ok .keep := by
  intro c m
  have hlength : c.options.length < 2 ^ 31 := by decide
  obtain ⟨_, _, hserves⟩ := compile_serves c hlength
  have h : c.compile = .ok c.declared := compile_eq_ok_iff.mpr ⟨by decide, rfl⟩
  obtain ⟨entries, hentries, hs⟩ := hserves _ h
  have hfirst : (OptionDecl.flag ⟨"-v"⟩ (some "verbose") .keep, ⟨0⟩) ∈ entries := by
    obtain ⟨⟨d, key⟩, rest, rfl, rfl, _⟩ := List.map_eq_cons_iff.mp hentries
    have hkey : some (⟨0⟩ : Key) = some key :=
      congrArg (fun rows : List (Row Matches) => rows.head?.bind fun row => row.dest.key?) hs.rows
    rw [Option.some.inj hkey]
    exact List.mem_cons_self
  obtain ⟨hreply, hcounted, hothers⟩ :=
    (hs.dispatch _ _ _ _ hfirst "verbose" rfl m "-v" ["prog"]).recorded 1 (by decide)
  exact ⟨hlength, _, h, by decide, by decide, ⟨entries, hentries, hs⟩, hcounted,
    (hothers "q" (by decide)).trans (by decide), by rw [hreply]; rfl⟩

end Config

end GroupedOptions
