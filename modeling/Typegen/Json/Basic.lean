import Typegen.Decimal.Binary64

/-!
# JSON values

A JSON value whose objects keep the order of their members.  Whole numbers and numbers with a
fraction or an exponent are told apart.  Strings are Unicode texts, except in a value that has just
been read: there a string may have half of a surrogate pair in it (`Raw`).
-/

namespace Typegen

/-- A JSON value, for a type of strings. -/
inductive Json (τ : Type := String) where
  | null
  | bool (b : Bool)
  | int (n : Int)
  | float (x : Binary64)
  | string (s : τ)
  | array (items : List (Json τ))
  | object (members : List (τ × Json τ))
  deriving Inhabited

namespace Json

/-- A piece of a string: a character, or a UTF-16 unit given by an escape. -/
inductive Piece where
  | char (c : Char)
  | unit (n : Nat)
  deriving DecidableEq, Repr

/-- A value whose strings are made of pieces. -/
abbrev Raw := Json (List Piece)

/-- The value of a key in a list of members. -/
def get? (members : List (String × Json)) (key : String) : Option Json := members.lookup key

/-- Whether a list of members has a key. -/
def hasKey (members : List (String × Json)) (key : String) : Bool :=
  members.any fun m => m.1 == key

/-- The keys of a list of members. -/
def keys {κ α : Type} (members : List (κ × α)) : List κ := members.map Prod.fst

/-- A value that counts as "nothing given": null, false, zero, and empty strings and containers. -/
def isFalsy : Json → Bool
  | null => true
  | bool b => !b
  | int n => n = 0
  | float (.finite _ m _) => m = 0
  | float _ => false
  | string s => s = ""
  | array items => items.isEmpty
  | object members => members.isEmpty

/-- A value that counts as given. -/
def isTruthy (v : Json) : Bool := !v.isFalsy

/-- Members with a key set to a value: in its place when the key occurs, at the end otherwise. -/
def setMember {κ α : Type} [DecidableEq κ] (key : κ) (v : α) : List (κ × α) → List (κ × α)
  | [] => [(key, v)]
  | (k, w) :: rest => if k = key then (k, v) :: rest else (k, w) :: setMember key v rest

/-! ## Raw values -/

/-- The characters of pieces that are all characters. -/
def chars? : List Piece → Option (List Char)
  | [] => some []
  | .char c :: rest => (chars? rest).map (c :: ·)
  | .unit _ :: _ => none

/-- The text of a string that has no half of a surrogate pair. -/
def text? (ps : List Piece) : Option String := (chars? ps).map String.ofList

mutual

/-- A raw value with texts for strings, unless a string has half of a surrogate pair. -/
def ofRaw? : Raw → Option Json
  | null => some null
  | bool b => some (bool b)
  | int n => some (int n)
  | float x => some (float x)
  | string ps => (text? ps).map string
  | array items => (itemsOfRaw? items).map array
  | object members => (membersOfRaw? members).map object

/-- The items of a raw array, with texts for strings. -/
def itemsOfRaw? : List Raw → Option (List Json)
  | [] => some []
  | v :: rest => do return (← ofRaw? v) :: (← itemsOfRaw? rest)

/-- The members of a raw object, with texts for strings. -/
def membersOfRaw? : List (List Piece × Raw) → Option (List (String × Json))
  | [] => some []
  | (key, v) :: rest => do return (← text? key, ← ofRaw? v) :: (← membersOfRaw? rest)

end

end Json

end Typegen
