import Typegen.Decimal.Shortest

/-!
# Text of a double

How a double is written: by its shortest digits, positionally when the decimal point falls within
sixteen digits of the front and at most three zeros follow it, and with an exponent of two digits or
more otherwise.
-/

namespace Typegen.Binary64

/-- The decimal digits of a number. -/
def digitsOf (n : Nat) : List Char := Nat.toDigits 10 n

/-- The choices that a written double depends on. -/
structure NumberFormat where
  /-- The point may stand after so many digits before an exponent is used. -/
  maxPoint : Int
  /-- The point may stand so many places in front of the first digit, as a negative number. -/
  minPoint : Int
  /-- The least number of digits in the exponent. -/
  exponentWidth : Nat

/-- Positional from `0.0001` up to sixteen digits, and exponents such as `e-07` and `e+16`. -/
def standardFormat : NumberFormat := ⟨16, -3, 2⟩

/-- A number with zeros in front, up to a width. -/
def padded (width n : Nat) : List Char :=
  let ds := digitsOf n
  List.replicate (width - ds.length) '0' ++ ds

/-- Digits with the decimal point after the first `point` of them; a whole number ends in `.0`. -/
def positional (ds : List Char) (point : Int) : List Char :=
  if point ≤ 0 then '0' :: '.' :: List.replicate (-point).toNat '0' ++ ds
  else if point.toNat < ds.length then ds.take point.toNat ++ '.' :: ds.drop point.toNat
  else ds ++ List.replicate (point.toNat - ds.length) '0' ++ ['.', '0']

/-- Digits in scientific notation. -/
def scientific (f : NumberFormat) (ds : List Char) (point : Int) : List Char :=
  let exponent := point - 1
  let mantissa := match ds with
    | [] => []
    | [d] => [d]
    | d :: rest => d :: '.' :: rest
  mantissa ++ ['e', if exponent < 0 then '-' else '+'] ++ padded f.exponentWidth exponent.natAbs

/-- The text of a positive decimal `c · 10 ^ k`. -/
def decimalText (f : NumberFormat) (c : Nat) (k : Int) : List Char :=
  let ds := digitsOf c
  let point := ds.length + k
  if f.minPoint ≤ point && point ≤ f.maxPoint then positional ds point else scientific f ds point

/-- The text of a double. -/
def displayChars : Binary64 → List Char
  | .nan => ['n', 'a', 'n']
  | .infinite negative => (if negative then ['-'] else []) ++ ['i', 'n', 'f']
  | .finite negative m e =>
    let sign := if negative then ['-'] else []
    if m = 0 then sign ++ ['0', '.', '0']
    else
      let (c, k) := shortest m e
      sign ++ decimalText standardFormat c k

/-- The text of a double as a string. -/
def display (x : Binary64) : String := String.ofList x.displayChars

end Typegen.Binary64
