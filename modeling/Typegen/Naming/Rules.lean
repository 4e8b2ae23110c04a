import Typegen.Naming.WordSet
import Typegen.Text.Case

/-!
# Naming rules

How a target spells identifiers.  Every target has rules of its own, and a configuration may replace
single ones.  The values of four rules are used as a configuration gives them: whether they have a
usable type shows only when a name needs them.
-/

namespace Typegen.Naming

/-- How the parts of a nested type's name are joined. -/
inductive Separator where
  | concatenate
  | underscore
  deriving DecidableEq, Repr

/-- The name of a separator policy. -/
def Separator.label : Separator → String
  | concatenate => "concatenate"
  | underscore => "underscore"

/-- The separator policy with the given name. -/
def Separator.ofLabel? : String → Option Separator
  | "concatenate" => some .concatenate
  | "underscore" => some .underscore
  | _ => none

/-- The identifier rules of a target. -/
structure Rules where
  /-- The case of type names. -/
  typeCase : Text.Case := .pascal
  /-- The case of field names, if it is another one. -/
  ownFieldCase : Option Text.Case := none
  /-- The case of the members of enumerations. -/
  memberCase : Text.Case := .pascal
  /-- The words that no type may be called. -/
  reserved : WordSet := .empty
  /-- The words that no field may be called, if they are others. -/
  ownFieldReserved : Option WordSet := none
  /-- What is put behind a reserved word. -/
  escapeSuffix : Json := .string "_"
  /-- What is put in front of an identifier that would begin with a digit. -/
  digitPrefix : Json := .string "_"
  /-- The greatest length of an identifier; null when there is none. -/
  maxLength : Json := .null
  /-- How the parts of a nested type's name are joined. -/
  separator : Separator := .concatenate
  /-- Whether members of enumerations are named like types, after their enumeration. -/
  qualifyMembers : Json := .bool false

namespace Rules

/-- The case of field names. -/
def fieldCase (r : Rules) : Text.Case := r.ownFieldCase.getD r.typeCase

/-- The words that no field may be called. -/
def fieldReserved (r : Rules) : WordSet := r.ownFieldReserved.getD r.reserved

/-! ## Overrides -/

/-- The names of the rules, in order. -/
def optionNames : List String :=
  ["case_convention", "field_case_convention", "enum_member_case_convention", "reserved_words",
    "field_reserved_words", "escape_suffix", "leading_digit_prefix", "max_identifier_length",
    "separator_policy", "qualify_enum_members"]

/-- The case that an option names. -/
def readCase (v : Json) : Except Failure Text.Case :=
  let found := match v with
    | .string s => Text.Case.ofLabel? s
    | _ => none
  match found with
  | some c => .ok c
  | none => .error (.badOption (v.display ++ " is not a valid CaseConvention"))

/-- The separator policy that an option names. -/
def readSeparator (v : Json) : Except Failure Separator :=
  let found := match v with
    | .string s => Separator.ofLabel? s
    | _ => none
  match found with
  | some p => .ok p
  | none => .error (.badOption (v.display ++ " is not a valid SeparatorPolicy"))

/-- Every option is the name of a rule. -/
def checkNames (names : WordSet) : Except Failure Unit :=
  let unknown := names.words.filter fun w => !optionNames.contains w
  match unknown, names.others with
  | [], [] => .ok ()
  | _, [] =>
    .error (.badOption ("Unknown naming option(s): " ++
      Json.commaSeparated (unknown.mergeSort fun a b => decide (a ≤ b))))
  | _, _ => .error (.wrongType (.unusable "option names have to be strings"))

/-- An option, if it is given and not null. -/
def given? (options : List (String × Json)) (key : String) : Option Json :=
  match Json.get? options key with
  | some .null => none
  | o => o

/-- The rules with the given options in place of their own. -/
def override (r : Rules) (options : List (String × Json)) : Except Failure Rules := do
  checkNames ⟨Json.keys options, []⟩
  let at? := Json.get? options
  let typeCase ← ((at? "case_convention").mapM readCase)
  let memberCase ← ((at? "enum_member_case_convention").mapM readCase)
  let fieldCase ← ((given? options "field_case_convention").mapM readCase)
  let separator ← ((at? "separator_policy").mapM readSeparator)
  let reserved ← ((at? "reserved_words").mapM WordSet.ofJson)
  let fieldReserved ← ((given? options "field_reserved_words").mapM WordSet.ofJson)
  return {
    typeCase := typeCase.getD r.typeCase
    ownFieldCase := if Json.hasKey options "field_case_convention" then fieldCase else r.ownFieldCase
    memberCase := memberCase.getD r.memberCase
    reserved := reserved.getD r.reserved
    ownFieldReserved :=
      if Json.hasKey options "field_reserved_words" then fieldReserved else r.ownFieldReserved
    escapeSuffix := (at? "escape_suffix").getD r.escapeSuffix
    digitPrefix := (at? "leading_digit_prefix").getD r.digitPrefix
    maxLength := (at? "max_identifier_length").getD r.maxLength
    separator := separator.getD r.separator
    qualifyMembers := (at? "qualify_enum_members").getD r.qualifyMembers }

/-- The rules after a configuration's overrides.  A value that counts as nothing changes nothing;
one that is no object is refused, as the elements it lists cannot be options with values. -/
def merged (r : Rules) (overrides : Json) : Except Failure Rules :=
  if overrides.isFalsy then .ok r
  else
    match overrides with
    | .object options => r.override options
    | v => do
      let elements ← WordSet.elements v
      let names ← WordSet.ofElements elements
      checkNames names
      match names.words with
      | [] => .error (.wrongType (.unusable "options have to be an object"))
      | w :: _ =>
        .error (.badOption
          s!"dictionary update sequence element #0 has length {w.length}; 2 is required")

/-! ## Listing -/

/-- A set of words as a value. -/
def listWords (s : WordSet) : Except Failure Json := s.sorted.map .array

/-- The rules as a value, by the names of their options. -/
def toJson (r : Rules) : Except Failure Json := do
  let reserved ← listWords r.reserved
  let fieldReserved ← r.ownFieldReserved.mapM listWords
  return .object
    [("case_convention", .string r.typeCase.label),
      ("field_case_convention",
        match r.ownFieldCase with
        | some c => .string c.label
        | none => .null),
      ("enum_member_case_convention", .string r.memberCase.label),
      ("reserved_words", reserved),
      ("field_reserved_words", fieldReserved.getD .null),
      ("escape_suffix", r.escapeSuffix),
      ("leading_digit_prefix", r.digitPrefix),
      ("max_identifier_length", r.maxLength),
      ("separator_policy", .string r.separator.label),
      ("qualify_enum_members", r.qualifyMembers)]

end Rules

end Typegen.Naming
