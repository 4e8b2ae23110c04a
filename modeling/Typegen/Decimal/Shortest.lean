import Typegen.Decimal.Binary64

/-!
# Shortest decimals

The decimal with the fewest digits that reads back as a given double, and of those the one nearest
to it.  The reals that read back as `m · 2 ^ e` form an interval around it, whose ends belong to it
exactly when `m` is even; for each number of digits the two neighbours of the value on that decimal
grid are tried.
-/

namespace Typegen.Binary64

/-- How `a · 2 ^ e` compares with `b · 10 ^ k`. -/
def comparePowers (a : Nat) (e : Int) (b : Nat) (k : Int) : Ordering :=
  compare (a * Nat.pow 2 e.toNat * Nat.pow 10 (-k).toNat)
    (b * Nat.pow 10 k.toNat * Nat.pow 2 (-e).toNat)

/-- Whether the decimal `c · 10 ^ k` reads back as `m · 2 ^ e`. -/
def readsBack (m : Nat) (e : Int) (c : Nat) (k : Int) : Bool :=
  let below := if m = Nat.pow 2 52 && minExponent < e then 1 else 2
  let low := comparePowers (4 * m - below) (e - 2) c k
  let high := comparePowers (4 * m + 2) (e - 2) c k
  if m % 2 = 0 then low != .gt && high != .lt else low == .lt && high == .gt

/-- Whether `c · 10 ^ k` is nearer to `m · 2 ^ e` than `(c + 1) · 10 ^ k`, or as near and even. -/
def lowerIsNearer (m : Nat) (e : Int) (c : Nat) (k : Int) : Bool :=
  match comparePowers (2 * m) e (2 * c + 1) k with
  | .lt => true
  | .gt => false
  | .eq => c % 2 = 0

/-- The largest `c` with `c · 10 ^ k ≤ m · 2 ^ e`. -/
def floorDecimal (m : Nat) (e k : Int) : Nat :=
  (m * Nat.pow 2 e.toNat * Nat.pow 10 (-k).toNat) / (Nat.pow 10 k.toNat * Nat.pow 2 (-e).toNat)

/-- The least `p` with `m · 2 ^ e < 10 ^ p`, found from the number of bits. -/
def decimalMagnitude (m : Nat) (e : Int) : Int :=
  let guess := ((m.log2 : Int) + e) * 30103 / 100000
  if comparePowers m e 1 guess == .lt then guess
  else if comparePowers m e 1 (guess + 1) == .lt then guess + 1
  else guess + 2

/-- The shortest decimal of `n` digits or more that reads back, as coefficient and power of ten;
`p` is the magnitude of the value. -/
def shortestFrom (m : Nat) (e p : Int) : (tries n : Nat) → Nat × Int
  | 0, n => (floorDecimal m e (p - n), p - n)
  | tries + 1, n =>
    let k := p - n
    let c := floorDecimal m e k
    let low := readsBack m e c k
    let high := readsBack m e (c + 1) k
    if low && (!high || lowerIsNearer m e c k) then (c, k)
    else if high then (c + 1, k)
    else shortestFrom m e p tries (n + 1)

/-- The shortest decimal that reads back as a positive `m · 2 ^ e`, as coefficient and power of
ten.  Seventeen digits always suffice.  The upper neighbour of a value just below a power of ten is
that power, which has one digit. -/
def shortest (m : Nat) (e : Int) : Nat × Int :=
  match shortestFrom m e (decimalMagnitude m e) 17 1 with
  | (10, k) => (1, k + 1)
  | (c, k) => (c, k)

end Typegen.Binary64
