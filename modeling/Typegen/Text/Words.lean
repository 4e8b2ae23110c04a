/-!
# Words of a text

An identifier such as `HTTPServer2` or `first_name` is read as a list of words before it is put
into another case.  Only the ASCII letters and digits take part; every other character separates
words.  A word is a run of capitals, an optional capital followed by small letters, or nothing of
the two, in each case followed by digits; a run of capitals in front of a capitalised word ends one
letter early, so that `HTTPServer` is `HTTP` and `Server`.

`wordLength` measures the word at the head of a text and `words` cuts the text into its words.
-/

namespace Typegen.Text

/-- An ASCII capital. -/
def isCapital (c : Char) : Bool := 'A' ≤ c && c ≤ 'Z'

/-- An ASCII small letter. -/
def isSmall (c : Char) : Bool := 'a' ≤ c && c ≤ 'z'

/-- An ASCII digit. -/
def isDigit (c : Char) : Bool := '0' ≤ c && c ≤ '9'

/-- The characters that words are made of. -/
def isWordChar (c : Char) : Bool := isCapital c || isSmall c || isDigit c

/-- The length of the word that a text begins with, zero when it begins with a separator. -/
def wordLength (cs : List Char) : Nat :=
  let capitals := (cs.takeWhile isCapital).length
  let smalls := ((cs.drop capitals).takeWhile isSmall).length
  if 2 ≤ capitals ∧ 1 ≤ smalls then capitals - 1
  else capitals + smalls + ((cs.drop (capitals + smalls)).takeWhile isDigit).length

/-- The words of a text, from left to right. -/
def words : List Char → List (List Char)
  | [] => []
  | c :: cs =>
    match wordLength (c :: cs) with
    | 0 => words cs
    | n + 1 => (c :: cs.take n) :: words (cs.drop n)
termination_by cs => cs.length

/-- The words of a string. -/
def splitWords (s : String) : List String := (words s.toList).map String.ofList

end Typegen.Text
