import GroupedOptions.Text.Octets

/-!
# Option templates

A template is a literal token, or a name whose value follows `=` or a space.
The separator is the first `=`, or the first space where there is no `=`, and
it counts only when nothing or a `%` directive follows it. Queries about a
match take the separator as an octet offset, as the match reports it, and
answer for every offset.
-/

namespace GroupedOptions

/-- The pattern of an option token, such as `uid=%u`, `-p %u` or `ro`. -/
structure Template where
  text : String
  deriving DecidableEq, Repr

namespace Template

open Text

def cutAt (mark : Char) : List Char → Option (List Char × List Char)
  | [] => none
  | c :: cs =>
      if c = mark then some ([], cs)
      else (cutAt mark cs).map fun (before, after) => (c :: before, after)

theorem cutAt_eq_some {mark : Char} {cs a b : List Char} :
    cutAt mark cs = some (a, b) ↔ cs = a ++ mark :: b ∧ mark ∉ a := by
  induction cs generalizing a with
  | nil => simp [cutAt]
  | cons c cs ih =>
    by_cases h : c = mark
    · subst h
      cases a with
      | nil => simp [cutAt, eq_comm]
      | cons d ds => simp only [cutAt]; grind
    · cases a with
      | nil => simp [cutAt, h]
      | cons d ds =>
        simp only [cutAt, if_neg h, Option.map_eq_some_iff, Prod.exists]
        grind

structure Parts where
  name : List Char
  spaced : Bool
  directive : List Char
  deriving DecidableEq, Repr

namespace Parts

def mark (p : Parts) : Char := if p.spaced then ' ' else '='

/-- What a token must start with; a space may be left out, so it is no part of the stem. -/
def stem (p : Parts) : List Char := if p.spaced then p.name else p.name ++ ['=']

end Parts

/-- The template cut at its first `=`, or failing that at its first space. -/
def cut? (t : Template) : Option Parts :=
  match cutAt '=' t.text.toList with
  | some (name, rest) => some ⟨name, false, rest⟩
  | none => (cutAt ' ' t.text.toList).map fun (name, rest) => ⟨name, true, rest⟩

/-- A separator is valid when nothing or a `%` directive follows it. -/
def parts? (t : Template) : Option Parts :=
  t.cut?.filter fun p => p.directive.isEmpty || p.directive.head? == some '%'

theorem toList_text_of_parts? {t : Template} {p : Parts} (h : t.parts? = some p) :
    t.text.toList = p.name ++ p.mark :: p.directive := by
  obtain ⟨hc, -⟩ := Option.filter_eq_some_iff.mp h
  unfold cut? at hc
  split at hc
  next name rest heq =>
    cases hc
    exact (cutAt_eq_some.mp heq).1
  next =>
    obtain ⟨⟨name, rest⟩, heq, rfl⟩ := Option.map_eq_some_iff.mp hc
    exact (cutAt_eq_some.mp heq).1

def separator? (t : Template) : Option Nat :=
  t.parts?.map fun p => octetCount p.name

/-- The separator offset with which `token` matches, or 0 when the match leaves no value part. -/
def match? (t : Template) (token : String) : Option Nat :=
  match t.parts?.filter fun p => p.stem.isPrefixOf token.toList with
  | some p => some (octetCount p.name)
  | none => if t.text = token then some 0 else none

def isSpaced (t : Template) (sep : Nat) : Bool :=
  0 < sep && charAt? sep t.text.toList == some ' '

/-- The directive after the separator; a match at 0 has none. -/
def conversion? (t : Template) (sep : Nat) : Option String :=
  if sep = 0 then none
  else ((dropOctets (sep + 1) t.text.toList).filter (!·.isEmpty)).map String.ofList

/-- The value that `token` carries after the separator; empty when the cut falls outside it. -/
def valuePart (t : Template) (sep : Nat) (token : String) : String :=
  let start := if charAt? sep t.text.toList = some '=' then sep + 1 else sep
  String.ofList ((dropOctets start token.toList).getD [])

end Template

end GroupedOptions
