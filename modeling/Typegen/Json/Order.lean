import Typegen.Json.Basic

/-!
# Numbers among JSON values

Whole numbers, doubles and booleans are numbers of one order: a boolean counts as zero or one, and a
double as its exact value.
-/

namespace Typegen.Json

/-- A number by its exact value `n · 2 ^ e`, or an infinity. -/
inductive Number where
  | negativeInfinity
  | exact (n : Int) (e : Int)
  | positiveInfinity

/-- The number that a value stands for. -/
def number? : Json → Option Number
  | bool b => some (.exact (if b then 1 else 0) 0)
  | int n => some (.exact n 0)
  | float (.finite negative m e) => some (.exact (if negative then -m else m) e)
  | float (.infinite true) => some .negativeInfinity
  | float (.infinite false) => some .positiveInfinity
  | _ => none

/-- How two numbers compare. -/
def Number.compare : Number → Number → Ordering
  | exact a e, exact b f =>
    let least := min e f
    Ord.compare (a * Int.pow 2 (e - least).toNat) (b * Int.pow 2 (f - least).toNat)
  | negativeInfinity, negativeInfinity => .eq
  | positiveInfinity, positiveInfinity => .eq
  | negativeInfinity, _ => .lt
  | _, positiveInfinity => .lt
  | positiveInfinity, _ => .gt
  | _, negativeInfinity => .gt

mutual

/-- Whether two values are equal; numbers are compared by value, and the order of an object's members
does not matter. -/
def equals : Json → Json → Bool
  | null, null => true
  | string a, string b => a = b
  | array as, array bs => equalItems as bs
  | object as, object bs => as.length = bs.length && memberOf as bs
  | a, b =>
    match a.number?, b.number? with
    | some x, some y => x.compare y == .eq
    | _, _ => false

/-- Whether two lists of values are equal. -/
def equalItems : List Json → List Json → Bool
  | [], [] => true
  | a :: as, b :: bs => equals a b && equalItems as bs
  | _, _ => false

/-- Whether all members are members of another object. -/
def memberOf : List (String × Json) → List (String × Json) → Bool
  | [], _ => true
  | (k, v) :: rest, bs =>
    (match get? bs k with
      | some w => equals v w
      | none => false) && memberOf rest bs

end

/-- Whether two values that are neither texts nor containers count as one element of a set.  Unlike
in a comparison, a double that is no number is the same element as another one. -/
def sameElement : Json → Json → Bool
  | null, null => true
  | float .nan, float .nan => true
  | a, b =>
    match a.number?, b.number? with
    | some x, some y => x.compare y == .eq
    | _, _ => false

end Typegen.Json
