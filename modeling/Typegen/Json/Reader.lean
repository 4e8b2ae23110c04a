import Typegen.Json.Basic
import Typegen.Text.Words
import Typegen.Text.Hex

/-!
# Reading JSON

`read` turns a text into a value, or says what is wrong and where.  Besides the grammar of JSON the
reader knows `NaN`, `Infinity` and `-Infinity`.  What becomes of the members of an object is decided
by a parameter, which is asked each time an object is closed, so inner objects come first:
`lastWins` lets a repeated key replace its value, `noRepeats` refuses it.

A string is read as its pieces, so a half of a surrogate pair that an escape spells is kept.  An
integer is only read up to a number of digits.

A fault is placed by the number of characters that are left from its position to the end of the
text, so that no position has to be carried along.
-/

namespace Typegen.Json

/-- The digits that an integer may have. -/
def maxDigits : Nat := 4300

/-- What can be wrong with a JSON text: its spelling, or the length of an integer. -/
inductive Problem where
  | expectingValue
  | expectingName
  | expectingColon
  | expectingComma
  | unterminatedString
  | controlCharacter
  | badEscape
  | badUnicodeEscape
  | extraData
  | byteOrderMark
  /-- An integer has `maxDigits + 1 + excess` digits. -/
  | longInteger (excess : Nat)
  deriving DecidableEq, Repr

/-- Why a text could not be read: a problem, at a distance from the end, or a repeated key. -/
inductive Fault where
  | malformed (problem : Problem) (left : Nat)
  | repeatedKey (key : List Piece)
  deriving DecidableEq, Repr

/-- The blanks that may stand between the tokens of JSON. -/
def isSpace (c : Char) : Bool := c == ' ' || c == '\t' || c == '\n' || c == '\r'

/-- A text from its first character that is not a blank. -/
def skipSpaces (cs : List Char) : List Char := cs.dropWhile isSpace

/-! ## Strings -/

/-- The character of a one-letter escape. -/
def shortEscape? : Char → Option Char
  | '"' => some '"'
  | '\\' => some '\\'
  | '/' => some '/'
  | 'b' => some '\x08'
  | 'f' => some '\x0c'
  | 'n' => some '\n'
  | 'r' => some '\r'
  | 't' => some '\t'
  | _ => none

/-- The pieces of a string up to its closing quote, and the text behind it.  `opening` places the
opening quote. -/
def readPieces (opening : Nat) : List Char → Except Fault (List Piece × List Char)
  | [] => .error (.malformed .unterminatedString opening)
  | '"' :: rest => .ok ([], rest)
  | '\\' :: 'u' :: a :: b :: c :: d :: rest =>
    match rest.isEmpty, Text.hexNumber? [a, b, c, d] with
    | false, some n => do
      let (ps, rest) ← readPieces opening rest
      return (.unit n :: ps, rest)
    | _, _ => .error (.malformed .badUnicodeEscape (rest.length + 5))
  | '\\' :: 'u' :: rest => .error (.malformed .badUnicodeEscape (rest.length + 1))
  | '\\' :: c :: rest =>
    match shortEscape? c with
    | some e => do
      let (ps, rest) ← readPieces opening rest
      return (.char e :: ps, rest)
    | none => .error (.malformed .badEscape (rest.length + 2))
  | ['\\'] => .error (.malformed .unterminatedString opening)
  | c :: rest =>
    if c.toNat < 0x20 then .error (.malformed .controlCharacter (rest.length + 1))
    else do
      let (ps, rest) ← readPieces opening rest
      return (.char c :: ps, rest)

/-- The first unit of a surrogate pair. -/
def isHighSurrogate (n : Nat) : Bool := 0xd800 ≤ n && n < 0xdc00

/-- The second unit of a surrogate pair. -/
def isLowSurrogate (n : Nat) : Bool := 0xdc00 ≤ n && n < 0xe000

/-- A UTF-16 unit by itself: a character, unless it is half of a pair. -/
def single (n : Nat) : Piece :=
  if isHighSurrogate n || isLowSurrogate n then .unit n else .char (Char.ofNat n)

/-- The pieces of a string with surrogate pairs joined, so that units are halves of pairs. -/
def joinPieces : List Piece → List Piece
  | [] => []
  | .char c :: rest => .char c :: joinPieces rest
  | .unit h :: .unit l :: rest =>
    if isHighSurrogate h && isLowSurrogate l then
      .char (Char.ofNat (0x10000 + (h - 0xd800) * 0x400 + (l - 0xdc00))) :: joinPieces rest
    else single h :: joinPieces (.unit l :: rest)
  | .unit n :: rest => single n :: joinPieces rest

/-- The string whose opening quote has just been passed, and the text behind it. -/
def readString (cs : List Char) : Except Fault (List Piece × List Char) := do
  let (ps, rest) ← readPieces (cs.length + 1) cs
  return (joinPieces ps, rest)

/-! ## Numbers -/

/-- The number that a list of digits spells. -/
def digitsValue (ds : List Char) : Nat := ds.foldl (fun n d => 10 * n + (d.toNat - 0x30)) 0

/-- The digits at the front of a text, and the text behind them. -/
def spanDigits (cs : List Char) : List Char × List Char :=
  (cs.takeWhile Text.isDigit, cs.dropWhile Text.isDigit)

/-- The digits of a whole part: a zero alone, or digits that do not begin with zero. -/
def readWhole : List Char → Option (List Char × List Char)
  | '0' :: rest => some (['0'], rest)
  | c :: rest => if Text.isDigit c then some (spanDigits (c :: rest)) else none
  | [] => none

/-- The digits behind a decimal point; without a digit the point is not part of the number. -/
def readFraction : List Char → Option (List Char × List Char)
  | '.' :: rest => if (spanDigits rest).1.isEmpty then none else some (spanDigits rest)
  | _ => none

/-- The digits of an exponent with its sign apart. -/
def readSignedDigits : List Char → Option (Int × List Char)
  | '-' :: rest =>
    if (spanDigits rest).1.isEmpty then none
    else some (-(digitsValue (spanDigits rest).1 : Int), (spanDigits rest).2)
  | '+' :: rest =>
    if (spanDigits rest).1.isEmpty then none
    else some ((digitsValue (spanDigits rest).1 : Int), (spanDigits rest).2)
  | rest =>
    if (spanDigits rest).1.isEmpty then none
    else some ((digitsValue (spanDigits rest).1 : Int), (spanDigits rest).2)

/-- The exponent of a number; without a digit the letter is not part of the number. -/
def readExponent : List Char → Option (Int × List Char)
  | 'e' :: rest => readSignedDigits rest
  | 'E' :: rest => readSignedDigits rest
  | _ => none

/-- The integer that digits spell, if they are not too many. -/
def integer (negative : Bool) (digits : List Char) : Except Problem Raw :=
  if digits.length ≤ maxDigits then
    .ok (.int (if negative then -(digitsValue digits : Int) else digitsValue digits))
  else .error (.longInteger (digits.length - (maxDigits + 1)))

/-- The number at the front of a text, without its sign. -/
def readUnsigned (negative : Bool) (cs : List Char) :
    Option (Except Problem Raw × List Char) := do
  let (whole, rest) ← readWhole cs
  let (fraction, rest₁) := (readFraction rest).getD ([], rest)
  let (exponent, rest₂) := (readExponent rest₁).getD (0, rest₁)
  if (readFraction rest).isNone && (readExponent rest₁).isNone then
    return (integer negative whole, rest)
  else
    let n := digitsValue (whole ++ fraction)
    return (.ok (.float (.ofDecimal negative n (exponent - fraction.length))), rest₂)

/-- The number at the front of a text. -/
def readNumber : List Char → Option (Except Problem Raw × List Char)
  | '-' :: rest => readUnsigned true rest
  | cs => readUnsigned false cs

/-- The number at the front of a text, if it can be converted. -/
def readNumeral (cs : List Char) : Except Fault (Raw × List Char) :=
  match readNumber cs with
  | some (.ok v, rest) => .ok (v, rest)
  | some (.error problem, rest) => .error (.malformed problem rest.length)
  | none => .error (.malformed .expectingValue cs.length)

/-! ## Values -/

/-- The values that are neither strings nor containers. -/
def readAtom (cs : List Char) : Except Fault (Raw × List Char) :=
  match cs with
  | 'n' :: 'u' :: 'l' :: 'l' :: rest => .ok (.null, rest)
  | 't' :: 'r' :: 'u' :: 'e' :: rest => .ok (.bool true, rest)
  | 'f' :: 'a' :: 'l' :: 's' :: 'e' :: rest => .ok (.bool false, rest)
  | 'N' :: 'a' :: 'N' :: rest => .ok (.float .nan, rest)
  | 'I' :: 'n' :: 'f' :: 'i' :: 'n' :: 'i' :: 't' :: 'y' :: rest =>
    .ok (.float (.infinite false), rest)
  | '-' :: 'I' :: 'n' :: 'f' :: 'i' :: 'n' :: 'i' :: 't' :: 'y' :: rest =>
    .ok (.float (.infinite true), rest)
  | cs => readNumeral cs

/-- What becomes of the members of an object when it is closed. -/
abbrev Closing := List (List Piece × Raw) → Except Fault Raw

mutual

/-- The value at the front of a text, and the text behind it. -/
def readValue (close : Closing) : (fuel : Nat) → List Char → Except Fault (Raw × List Char)
  | 0, cs => .error (.malformed .expectingValue cs.length)
  | fuel + 1, cs =>
    match cs with
    | '"' :: rest => do
      let (s, rest) ← readString rest
      return (.string s, rest)
    | '[' :: rest =>
      match skipSpaces rest with
      | ']' :: rest => .ok (.array [], rest)
      | rest => do
        let (items, rest) ← readItems close fuel rest
        return (.array items, rest)
    | '\x7b' :: rest =>
      match skipSpaces rest with
      | '\x7d' :: rest => do return (← close [], rest)
      | rest => do
        let (members, rest) ← readMembers close fuel rest
        return (← close members, rest)
    | cs => readAtom cs

/-- The items of an array that has at least one, and the text behind its closing bracket. -/
def readItems (close : Closing) : (fuel : Nat) → List Char → Except Fault (List Raw × List Char)
  | 0, cs => .error (.malformed .expectingValue cs.length)
  | fuel + 1, cs => do
    let (v, rest) ← readValue close fuel cs
    match skipSpaces rest with
    | ']' :: rest => return ([v], rest)
    | ',' :: rest =>
      let (vs, rest) ← readItems close fuel (skipSpaces rest)
      return (v :: vs, rest)
    | rest => .error (.malformed .expectingComma rest.length)

/-- The members of an object that has at least one, and the text behind its closing brace. -/
def readMembers (close : Closing) :
    (fuel : Nat) → List Char → Except Fault (List (List Piece × Raw) × List Char)
  | 0, cs => .error (.malformed .expectingName cs.length)
  | fuel + 1, cs =>
    match cs with
    | '"' :: rest => do
      let (key, rest) ← readString rest
      match skipSpaces rest with
      | ':' :: rest =>
        let (v, rest) ← readValue close fuel (skipSpaces rest)
        match skipSpaces rest with
        | '\x7d' :: rest => return ([(key, v)], rest)
        | ',' :: rest =>
          let (ms, rest) ← readMembers close fuel (skipSpaces rest)
          return ((key, v) :: ms, rest)
        | rest => .error (.malformed .expectingComma rest.length)
      | rest => .error (.malformed .expectingColon rest.length)
    | cs => .error (.malformed .expectingName cs.length)

end

/-- The value that a text spells as a whole.  Two steps for each character are more than the reader
can take. -/
def readRaw (close : Closing) (cs : List Char) : Except Fault Raw := do
  let (v, rest) ← readValue close (2 * cs.length + 2) (skipSpaces cs)
  match skipSpaces rest with
  | [] => return v
  | rest => .error (.malformed .extraData rest.length)

/-- The value that a string spells; a byte order mark in front is refused. -/
def read (close : Closing) (s : String) : Except Fault Raw :=
  match s.toList with
  | '\ufeff' :: rest => .error (.malformed .byteOrderMark (rest.length + 1))
  | cs => readRaw close cs

/-! ## Closing an object -/

/-- Members in which a repeated key keeps its first place and its last value. -/
def mergeMembers (members : List (List Piece × Raw)) : List (List Piece × Raw) :=
  members.foldl (fun acc m => setMember m.1 m.2 acc) []

/-- A repeated key keeps its first place and its last value. -/
def lastWins : Closing := fun members => .ok (.object (mergeMembers members))

/-- The first key that occurs a second time. -/
def firstRepeat? {κ : Type} [DecidableEq κ] : (seen : List κ) → List κ → Option κ
  | _, [] => none
  | seen, k :: ks => if seen.contains k then some k else firstRepeat? (k :: seen) ks

/-- A repeated key is refused. -/
def noRepeats : Closing := fun members =>
  match firstRepeat? [] (keys members) with
  | some k => .error (.repeatedKey k)
  | none => .ok (.object members)

end Typegen.Json
