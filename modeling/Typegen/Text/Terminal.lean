/-!
# Text on a terminal

A terminal takes some sequences of characters as instructions, such as to change the colour.  Such a
sequence begins with an escape and a bracket, and ends with a letter or another sign of the upper
half of ASCII; what stands between are parameters and then other signs of the lower half.
-/

namespace Typegen.Text

/-- A parameter of a control sequence. -/
def isControlParameter (c : Char) : Bool := '0' ≤ c && c ≤ '?'

/-- A sign between the parameters and the end of a control sequence. -/
def isControlIntermediate (c : Char) : Bool := ' ' ≤ c && c ≤ '/'

/-- The end of a control sequence. -/
def isControlFinal (c : Char) : Bool := '@' ≤ c && c ≤ '~'

/-- What follows behind an escape that begins a control sequence. -/
def controlRest? : List Char → Option (List Char)
  | '[' :: cs =>
    match (cs.dropWhile isControlParameter).dropWhile isControlIntermediate with
    | c :: rest => if isControlFinal c then some rest else none
    | [] => none
  | _ => none

/-- What follows a control sequence is shorter than what begins with it. -/
theorem length_controlRest? {cs rest : List Char} (h : controlRest? cs = some rest) :
    rest.length < cs.length := by
  match cs with
  | [] => simp [controlRest?] at h
  | c :: cs =>
    have hp := (List.dropWhile_suffix isControlParameter (l := cs)).length_le
    have hi := (List.dropWhile_suffix isControlIntermediate
      (l := cs.dropWhile isControlParameter)).length_le
    unfold controlRest? at h
    split at h
    · rename_i ds heq
      cases heq
      split at h
      · rename_i d ds' hd
        split at h
        · cases h
          rw [hd] at hi
          simp only [List.length_cons] at hi ⊢
          omega
        · simp at h
      · simp at h
    · simp at h

/-- A text without its control sequences. -/
def dropControl (cs : List Char) : List Char :=
  match cs with
  | [] => []
  | c :: rest =>
    if c = '\x1b' then
      match _h : controlRest? rest with
      | some after => dropControl after
      | none => c :: dropControl rest
    else c :: dropControl rest
termination_by cs.length
decreasing_by
  · have := length_controlRest? _h
    simp only [List.length_cons]
    omega
  all_goals simp only [List.length_cons]; omega

end Typegen.Text
