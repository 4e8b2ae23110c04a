import Typegen.Failure

/-!
# Namespaces

A namespace hands out identifiers and never the same one twice.  A name that is reserved gets a
suffix; a name that is not free is followed by the least number from two on that makes it free.  A
length limit cuts names, and numbered ones so that the number still fits.
-/

namespace Typegen.Naming

/-- The identifiers handed out so far, and the rules for new ones. -/
structure Namespace where
  reserved : List String
  escapeSuffix : Json
  maxLength : Json
  taken : List String := []

/-- The length limit that an option stands for. -/
def lengthLimit : Json → Except Failure (Option Int)
  | .null => .ok none
  | .int n => .ok (some n)
  | .bool b => .ok (some (if b then 1 else 0))
  | _ => .error (.wrongType .notALength)

/-- The first characters of a name, up to a limit; a negative limit counts from the end. -/
def cutChars (limit : Int) (cs : List Char) : List Char :=
  if 0 ≤ limit then cs.take limit.toNat else cs.take (cs.length - limit.natAbs)

/-- A name cut to a limit, if there is one. -/
def truncate (limit : Option Int) (name : String) : String :=
  match limit with
  | none => name
  | some n => String.ofList (cutChars n name.toList)

/-- A number in decimal. -/
def numberText (n : Nat) : String := String.ofList (Nat.toDigits 10 n)

/-- The name followed by a number, cut so that the number fits; none when the number alone reaches
the limit. -/
def numbered (limit : Option Int) (base : String) (n : Nat) : Option String :=
  let suffix := numberText n
  match limit with
  | none => some (base ++ suffix)
  | some l =>
    if l ≤ suffix.length then none
    else some (truncate (some (l - suffix.length)) base ++ suffix)

namespace Namespace

/-- Whether a name can be handed out. -/
def isFree (ns : Namespace) (name : String) : Bool :=
  !ns.taken.contains name && !ns.reserved.contains name

/-- The first free name among those numbered from `n` on. -/
def firstNumbered (ns : Namespace) (limit : Option Int) (base : String) :
    (tries n : Nat) → Option String
  | 0, _ => none
  | tries + 1, n =>
    match numbered limit base n with
    | none => none
    | some name =>
      if ns.isFree name then some name else firstNumbered ns limit base tries (n + 1)

/-- A number of tries within which a numbered name is found: a name that is not free can be the
numbered form of a base for at most as many numbers as it has characters. -/
def tries (ns : Namespace) : Nat :=
  (ns.taken ++ ns.reserved).foldr (fun name tries => name.length + 1 + tries) 1

/-- The name that numbers are put behind: cut to the limit and, if that is reserved, with the
suffix and cut again. -/
def base (ns : Namespace) (limit : Option Int) (name : String) : Except Failure String :=
  let cut := truncate limit name
  if ns.reserved.contains cut then
    match ns.escapeSuffix with
    | .string suffix => .ok (truncate limit (cut ++ suffix))
    | v => .error (.wrongType (.appended v))
  else .ok cut

/-- Hand out an identifier for a name.  `path` says where the name is needed. -/
def claim (ns : Namespace) (name : String) (path : Option String) :
    Except Failure (String × Namespace) := do
  let limit ← lengthLimit ns.maxLength
  let base ← ns.base limit name
  let found := if ns.isFree base then some base else ns.firstNumbered limit base ns.tries 2
  match found with
  | some id => return (id, { ns with taken := id :: ns.taken })
  | none => .error (.report ⟨.exhausted base ns.maxLength, { path := path }⟩)

/-- Hand out identifiers for several names in order. -/
def claimAll (ns : Namespace) (path : Option String) :
    List String → Except Failure (List String × Namespace)
  | [] => .ok ([], ns)
  | name :: rest => do
    let (id, ns) ← ns.claim name path
    let (ids, ns) ← claimAll ns path rest
    return (id :: ids, ns)

end Namespace

end Typegen.Naming
