import Typegen.Failure
import Typegen.Json.Order

/-!
# Sets of words

A set of reserved words, as a configuration gives it.  Only strings can be words; other values are
kept apart, because a set that mixes them has no sorted form.
-/

namespace Typegen.Naming

/-- A set of words, with the elements that are no words. -/
structure WordSet where
  words : List String
  others : List Json := []

namespace WordSet

/-- No words. -/
def empty : WordSet := ⟨[], []⟩

/-- A set with one more element. -/
def insert (s : WordSet) : Json → Except Failure WordSet
  | .string w => .ok (if s.words.contains w then s else { s with words := s.words ++ [w] })
  | .array _ => .error (.wrongType (.unusable "unhashable type: 'list'"))
  | .object _ => .error (.wrongType (.unusable "unhashable type: 'dict'"))
  | v => .ok (if s.others.any v.sameElement then s else { s with others := s.others ++ [v] })

/-- The set of some elements. -/
def ofElements : List Json → Except Failure WordSet := List.foldlM insert empty

/-- The elements that a value contributes to a set: the items of an array, the keys of an object
and the characters of a string. -/
def elements : Json → Except Failure (List Json)
  | .array items => .ok items
  | .object members => .ok ((Json.keys members).map .string)
  | .string s => .ok (s.toList.map fun c => .string (String.singleton c))
  | v => .error (.wrongType (.unusable ("'" ++ v.typeName ++ "' object is not iterable")))

/-- The set that a configuration value stands for. -/
def ofJson (v : Json) : Except Failure WordSet := do ofElements (← elements v)

/-- Whether a value is a double that stands for no number. -/
def isUndefined : Json → Bool
  | .float .nan => true
  | _ => false

/-- Numbers in ascending order, with a double that stands for none at the end; nothing when there
are other values. -/
def sortNumbers? (vs : List Json) : Option (List Json) := do
  let (undefined, numbers) := vs.partition isUndefined
  let keyed ← numbers.mapM fun v => v.number?.map (·, v)
  return (keyed.mergeSort fun a b => a.1.compare b.1 != .gt).map Prod.snd ++ undefined

/-- The elements in order.  Elements that cannot be compared have none. -/
def sorted (s : WordSet) : Except Failure (List Json) :=
  match s.words, s.others with
  | ws, [] => .ok ((ws.mergeSort fun a b => decide (a ≤ b)).map .string)
  | [], [v] => .ok [v]
  | [], vs =>
    match sortNumbers? vs with
    | some sorted => .ok sorted
    | none => .error (.wrongType (.unusable "elements cannot be compared"))
  | _, _ => .error (.wrongType (.unusable "elements cannot be compared"))

end WordSet

end Typegen.Naming
