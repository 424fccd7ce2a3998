import GroupedOptions.Config
import GroupedOptions.Matches
import GroupedOptions.Parse

/-!
# Option sets

A valid configuration compiles to a table over the recorded results. Values,
sets and toggles are fields of the table. Flags are key rows, each with a key
of its own, and the callback counts them, records positional arguments and
applies the policies.
-/

namespace GroupedOptions

structure Flag where
  name : String
  policy : Policy
  deriving DecidableEq, Repr

structure OptionSet where
  table : Table Matches
  flags : List (Key × Flag)
  positional : Policy
  unmatched : Policy

/-- The verdict of a policy on a token, where `complaint` says what is wrong with it. -/
def Policy.verdict (p : Policy) (complaint token : String) : Except (Halt String) Disposition :=
  match p with
  | .keep => .ok .keep
  | .discard => .ok .discard
  | .error => .error (.error (complaint ++ ": " ++ token))

def Matches.field (name : String) : Field Matches := ⟨fun m v => (m.record name v, none)⟩

namespace OptionSet

def ofConfig (c : Config) : OptionSet := ⟨.empty, [], c.positional, c.unmatched⟩

/-- Adds the rows of a declaration, unless there is no key for another flag. -/
def declare (s : OptionSet) (d : OptionDecl) : Option OptionSet :=
  let name := d.name?.getD ""
  match d with
  | .flag t _ policy =>
      (s.table.addKey t.text).map fun (key, table) =>
        { s with table := table, flags := s.flags ++ [(key, ⟨name, policy⟩)] }
  | .value t _ => some { s with table := s.table.addField t.text (Matches.field name) }
  | .set t _ v => some { s with table := s.table.addValue t.text (Matches.field name) v }
  | .toggle t _ => some { s with table := s.table.addToggle t.text (Matches.field name) }
  | .keep t => some { s with table := s.table.addKeep t.text }
  | .discard t => some { s with table := s.table.addDiscard t.text }

/-- The count of a flag after one more token; a value of another kind counts for nothing.
There is none after the greatest number. -/
def nextCount? (m : Matches) (name : String) : Option UInt64 :=
  match m.get? name with
  | some (.uint n) => if n.toNat + 1 < UInt64.size then some (n + 1) else none
  | _ => some 1

/-- Handles what no field of the table takes. A flag is counted before its policy is asked. -/
def dispatch (s : OptionSet) : Callback Matches := fun m token key out =>
  if key = .positional then
    match s.positional.verdict "unexpected positional argument" token with
    | .ok disposition => ⟨m.addPositional token, out, .ok disposition⟩
    | .error cause => ⟨m, out, .error cause⟩
  else if key = .unmatched then ⟨m, out, s.unmatched.verdict "unknown option" token⟩
  else
    match s.flags.lookup key with
    | some flag =>
        match nextCount? m flag.name with
        | some count =>
            ⟨m.record flag.name (.uint count), out, flag.policy.verdict "unexpected option" token⟩
        | none => ⟨m, out, .error .overflow⟩
    | none => ⟨m, out, .ok .keep⟩

def parse (s : OptionSet) (args : ArgVec) : Except ParseError (Matches × ArgVec) :=
  let outcome := GroupedOptions.parse s.table (some s.dispatch) .empty args
  outcome.result.map fun rebuilt => (outcome.data, rebuilt)

end OptionSet

def Config.compile (c : Config) : Except (Halt ConfigError) OptionSet :=
  match c.validate with
  | .error e => .error (.error e)
  | .ok () =>
      match c.options.foldlM OptionSet.declare (OptionSet.ofConfig c) with
      | some s => .ok s
      | none => .error .overflow

end GroupedOptions
