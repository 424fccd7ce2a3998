/-!
# Argument vectors

An argument vector either holds its items itself or lends those of a caller.
A lent vector is copied by the first edit that takes effect, and an edit that
fails copies nothing.
-/

namespace GroupedOptions

/-- An ordered vector of arguments; `owned` says whether it holds the items itself. -/
structure ArgVec where
  items : List String
  owned : Bool
  deriving Repr

/-- An insert position beyond the end of a vector. -/
structure PositionError where
  pos : Nat
  size : Nat
  deriving DecidableEq, Repr

def PositionError.message (e : PositionError) : String :=
  "insert position " ++ toString e.pos ++ " is past the end of " ++ toString e.size ++ " arguments"

namespace ArgVec

/-- Vectors are compared by their items, whoever holds them. -/
instance : BEq ArgVec := ⟨fun a b => a.items == b.items⟩

def empty : ArgVec := ⟨[], true⟩

/-- A vector that holds the given items itself. -/
def ofList (items : List String) : ArgVec := ⟨items, true⟩

/-- A vector that lends the items of its caller. -/
def borrowed (items : List String) : ArgVec := ⟨items, false⟩

def toList (a : ArgVec) : List String := a.items

def size (a : ArgVec) : Nat := a.items.length

def isEmpty (a : ArgVec) : Bool := a.items.isEmpty

def get? (a : ArgVec) (i : Nat) : Option String := a.items[i]?

def last? (a : ArgVec) : Option String := a.items.getLast?

def add (a : ArgVec) (arg : String) : ArgVec := ofList (a.items ++ [arg])

/-- Inserts `arg` at `pos`, shifting later items up; the end is the last valid position. What
comes back is the vector after it, and the error if there is no such position. -/
def insert (a : ArgVec) (pos : Nat) (arg : String) : ArgVec × Option PositionError :=
  if pos ≤ a.size then (ofList (a.items.insertIdx pos arg), none) else (a, some ⟨pos, a.size⟩)

/-- Releases every item. -/
def free (_ : ArgVec) : ArgVec := empty

/-- The same items, held by the vector itself. -/
def intoOwned (a : ArgVec) : ArgVec := ofList a.items

end ArgVec

end GroupedOptions
