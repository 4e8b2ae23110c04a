/-!
# Suggestions for misspelled options

How alike two texts are is measured by the characters they have in common: a longest common run, and
then what is common on either side of it.  Options that are alike enough are suggested.
-/

namespace Typegen.Command

/-- The number of characters that two texts have in common at their front. -/
def commonFront : List Char → List Char → Nat
  | a :: as, b :: bs => if a = b then commonFront as bs + 1 else 0
  | _, _ => 0

/-- A common run: where it begins in either text, and its length. -/
structure CommonRun where
  left : Nat
  right : Nat
  length : Nat

/-- The longest common runs that begin at the front of the first text. -/
def longestAtFront (a : List Char) (left : Nat) : (right : Nat) → List Char → CommonRun
  | right, [] => ⟨left, right, 0⟩
  | right, b :: bs =>
    let here := commonFront a (b :: bs)
    let later := longestAtFront a left (right + 1) bs
    if later.length ≤ here then ⟨left, right, here⟩ else later

/-- The longest common run; of several the one that begins first in the first text, and then in the
second. -/
def longestRun (b : List Char) : (left : Nat) → List Char → CommonRun
  | left, [] => ⟨left, 0, 0⟩
  | left, a :: as =>
    let here := longestAtFront (a :: as) left 0 b
    let later := longestRun b (left + 1) as
    if later.length ≤ here.length then here else later

/-- The number of characters that two texts have in common, with a bound on the number of runs. -/
def commonCount : (bound : Nat) → List Char → List Char → Nat
  | 0, _, _ => 0
  | bound + 1, a, b =>
    let run := longestRun b 0 a
    if run.length = 0 then 0
    else
      commonCount bound (a.take run.left) (b.take run.right) + run.length +
        commonCount bound (a.drop (run.left + run.length)) (b.drop (run.right + run.length))

/-- The characters that two texts have in common. -/
def common (a b : List Char) : Nat := commonCount (a.length + 1) a b

/-- Whether the common characters make up six tenths of two texts. -/
def isAlike (a b : List Char) : Bool := 3 * (a.length + b.length) ≤ 10 * common a b

/-- Whether one option is more like a text than another: by the share of common characters, and then
by its own text. -/
def isCloser (word : List Char) (a b : String) : Bool :=
  let x := common a.toList word * (b.length + word.length)
  let y := common b.toList word * (a.length + word.length)
  y < x || (x = y && decide (b < a))

/-- The three options that are most like a text, of those that are alike enough, in order. -/
def suggestions (options : List String) (text : String) : List String :=
  let word := text.toList
  let alike := options.filter fun o => isAlike o.toList word
  let best := (alike.mergeSort fun a b => !isCloser word b a).take 3
  best.mergeSort fun a b => decide (a ≤ b)

end Typegen.Command
