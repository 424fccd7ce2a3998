import GroupedOptions.Step

/-!
# Parsing argument vectors

A parse takes the steps of its tokens one after the other. The caller's data
and the output change only in a step, and whatever was stored before a failure
stays stored. Kept fields gather in one group, which comes right after the
program name when all steps are done.
-/

namespace GroupedOptions

inductive Disposition where
  | keep
  | discard
  deriving DecidableEq, Repr

/-- The data and the output as a callback leaves them, and its verdict unless it has none. -/
structure Reply (D : Type) where
  data : D
  out : List String
  verdict : Except (Halt String) Disposition

/-- A callback is handed the data, a token, the token's key and the output so far. -/
abbrev Callback (D : Type) := D → String → Key → List String → Reply D

/-- A callback's turn: what it was handed, with the output at that time. -/
structure Call where
  token : String
  key : Key
  out : List String
  deriving DecidableEq, Repr

/-- A parse between two steps. The separator is known by the size of the output right
after it, and nothing else marks it. -/
structure Progress (D : Type) where
  data : D
  out : List String
  kept : List String
  separator : Option Nat
  calls : List Call

structure Failure (D : Type) where
  data : D
  calls : List Call
  error : ParseError

namespace Progress

variable {D : Type}

def start (data : D) (program : String) : Progress D := ⟨data, [program], [], none, []⟩

def fail (s : Progress D) (error : ParseError) : Except (Failure D) (Progress D) :=
  .error ⟨s.data, s.calls, error⟩

def keep (s : Progress D) (place : Place) (token : String) : Progress D :=
  match place with
  | .output => { s with out := s.out ++ [token] }
  | .group => { s with kept := s.kept ++ [token] }

/-- Hands a token to the callback under its key, and keeps it unless told otherwise. -/
def offer (callback : Option (Callback D)) (s : Progress D) (key : Key) (place : Place)
    (token : String) : Except (Failure D) (Progress D) :=
  if key = .discard then .ok s
  else if key = .keep then .ok (s.keep place token)
  else
    match callback with
    | none => .ok (s.keep place token)
    | some f =>
        let reply := f s.data token key s.out
        let s : Progress D :=
          { s with data := reply.data, out := reply.out, calls := s.calls ++ [⟨token, key, s.out⟩] }
        match reply.verdict with
        | .error cause => s.fail (.callback cause)
        | .ok .discard => .ok s
        | .ok .keep => .ok (s.keep place token)

def take (callback : Option (Callback D)) (s : Progress D) :
    Step D → Except (Failure D) (Progress D)
  | .offer key place token => s.offer callback key place token
  | .store field token v =>
      match field.store s.data v with
      | (data, none) => .ok { s with data := data }
      | (data, some e) => { s with data := data }.fail (.invalidConversion token e)
  | .separator => .ok { s with out := s.out ++ ["--"], separator := some (s.out.length + 1) }
  | .fail error => s.fail error

def run (callback : Option (Callback D)) (s : Progress D) :
    List (Step D) → Except (Failure D) (Progress D)
  | [] => .ok s
  | step :: steps =>
      match s.take callback step with
      | .ok s => run callback s steps
      | .error failure => .error failure

theorem run_append (callback : Option (Callback D)) (s : Progress D) (xs ys : List (Step D)) :
    s.run callback (xs ++ ys) = (s.run callback xs).bind fun s => s.run callback ys := by
  induction xs generalizing s with
  | nil => rfl
  | cons x xs ih =>
    cases h : s.take callback x with
    | ok s' => simpa [run, h] using ih s'
    | error f => simp [run, h, Except.bind]

/-- Drops a separator with nothing after it. -/
def trim (out : List String) (separator : Option Nat) : List String :=
  if separator = some out.length ∧ out.getLast? = some "--" then out.dropLast else out

/-- The argument vector of a finished parse, the kept fields in a group after the program name. -/
def assemble (s : Progress D) : Except PositionError ArgVec :=
  match Group.join s.kept with
  | none => .ok (.ofList (trim s.out s.separator))
  | some group =>
      match (ArgVec.ofList s.out).insert 1 "-o" with
      | (_, some e) => .error e
      | (args, none) =>
          match args.insert 2 group with
          | (_, some e) => .error e
          | (args, none) => .ok (.ofList (trim args.toList (s.separator.map (· + 2))))

end Progress

/-- What a parse leaves behind: the data, the callback's turns, and the rebuilt argument
vector or the error. -/
structure Outcome (D : Type) where
  data : D
  calls : List Call
  result : Except ParseError ArgVec

def parse {D : Type} (table : Table D) (callback : Option (Callback D)) (data : D)
    (args : ArgVec) : Outcome D :=
  match args.toList with
  | [] => ⟨data, [], .ok .empty⟩
  | program :: tokens =>
      match (Progress.start data program).run callback (table.steps .options tokens) with
      | .error failure => ⟨failure.data, failure.calls, .error failure.error⟩
      | .ok s => ⟨s.data, s.calls, s.assemble.mapError .invalidPosition⟩

end GroupedOptions
