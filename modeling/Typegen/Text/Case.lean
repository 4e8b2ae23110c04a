import Typegen.Text.Words

/-!
# Letter case

The five conventions in which a name can be spelled, and the conversion of a text to each of them.
A conversion works on the words of the text, so its result holds ASCII letters, digits and
underscores only; `preserve` leaves the text alone.
-/

namespace Typegen.Text

/-- The capital of an ASCII small letter; other characters stay. -/
def toCapital (c : Char) : Char := if isSmall c then Char.ofNat (c.toNat - 32) else c

/-- The small letter of an ASCII capital; other characters stay. -/
def toSmall (c : Char) : Char := if isCapital c then Char.ofNat (c.toNat + 32) else c

/-- A word with its first letter in capitals and the rest in small letters. -/
def capitalize : List Char → List Char
  | [] => []
  | c :: cs => toCapital c :: cs.map toSmall

/-- A spelling of names. -/
inductive Case where
  | pascal
  | camel
  | snake
  | screamingSnake
  | preserve
  deriving DecidableEq, Repr

namespace Case

/-- All conventions, in their customary order. -/
def all : List Case := [pascal, camel, snake, screamingSnake, preserve]

/-- The name of a convention, spelled in that convention. -/
def label : Case → String
  | pascal => "PascalCase"
  | camel => "camelCase"
  | snake => "snake_case"
  | screamingSnake => "SCREAMING_SNAKE_CASE"
  | preserve => "preserve"

/-- The convention with the given name. -/
def ofLabel? (s : String) : Option Case := all.find? fun c => c.label = s

end Case

/-- `FirstName`. -/
def toPascal (cs : List Char) : List Char := ((words cs).map capitalize).flatten

/-- `firstName`. -/
def toCamel (cs : List Char) : List Char :=
  match words cs with
  | [] => []
  | w :: ws => w.map toSmall ++ (ws.map capitalize).flatten

/-- `first_name`. -/
def toSnake (cs : List Char) : List Char :=
  (((words cs).map (List.map toSmall)).intersperse ['_']).flatten

/-- `FIRST_NAME`. -/
def toScreamingSnake (cs : List Char) : List Char :=
  (((words cs).map (List.map toCapital)).intersperse ['_']).flatten

/-- A text respelled in a convention. -/
def Case.convertChars : Case → List Char → List Char
  | .pascal, cs => toPascal cs
  | .camel, cs => toCamel cs
  | .snake, cs => toSnake cs
  | .screamingSnake, cs => toScreamingSnake cs
  | .preserve, cs => cs

/-- A string respelled in a convention. -/
def Case.convert (c : Case) (s : String) : String := String.ofList (c.convertChars s.toList)

end Typegen.Text
