/-!
# Double-precision numbers

A number of the double format by its parts: a finite one is `m · 2 ^ e` with a sign.  `ofDecimal`
rounds `n · 10 ^ k` to the nearest double, a tie going to the even mantissa; what is too large for
the format is infinite.
-/

namespace Typegen

/-- A number of the double format.  A finite one has `m < 2 ^ 53`, and either `2 ^ 52 ≤ m` or the
least exponent, `-1074`. -/
inductive Binary64 where
  | nan
  | infinite (negative : Bool)
  | finite (negative : Bool) (m : Nat) (e : Int)
  deriving DecidableEq, Repr

namespace Binary64

/-- The least exponent. -/
def minExponent : Int := -1074

/-- The greatest exponent. -/
def maxExponent : Int := 971

/-- Zero, with a sign. -/
def zero (negative : Bool) : Binary64 := .finite negative 0 minExponent

/-- A quotient rounded to the nearest integer, a tie going to the even one. -/
def roundDiv (num den : Nat) : Nat :=
  let q := num / den
  let r := num % den
  if 2 * r < den then q
  else if den < 2 * r then q + 1
  else if q % 2 = 0 then q else q + 1

/-- The quotient `num / (den · 2 ^ e)` as a fraction of natural numbers. -/
def scaled (num den : Nat) (e : Int) : Nat × Nat :=
  if 0 ≤ e then (num, den * Nat.pow 2 e.toNat) else (num * Nat.pow 2 (-e).toNat, den)

/-- The double nearest to a positive fraction. -/
def ofFraction (negative : Bool) (num den : Nat) : Binary64 :=
  let guess := max minExponent ((num.log2 : Int) - den.log2 - 52)
  let (n₀, d₀) := scaled num den guess
  let e := if n₀ / d₀ < Nat.pow 2 52 && minExponent < guess then guess - 1 else guess
  let (n, d) := scaled num den e
  let m := roundDiv n d
  let (m, e) := if m = Nat.pow 2 53 then (Nat.pow 2 52, e + 1) else (m, e)
  if maxExponent < e then .infinite negative else .finite negative m e

/-- The double nearest to `n · 10 ^ k`.  Exponents far outside the range are settled at once. -/
def ofDecimal (negative : Bool) (n : Nat) (k : Int) : Binary64 :=
  if n = 0 then zero negative
  else if 400 < k then .infinite negative
  else if (Nat.toDigits 10 n).length + k < -330 then zero negative
  else if 0 ≤ k then ofFraction negative (n * Nat.pow 10 k.toNat) 1
  else ofFraction negative n (Nat.pow 10 (-k).toNat)

end Binary64

end Typegen
