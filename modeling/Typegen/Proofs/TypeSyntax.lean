import Mathlib.Data.List.Basic
import Typegen.Proofs.Spelled
import Typegen.Text.Identifier

/-!
# Types as TypeScript reads them

A text is split into words, string literals and marks, and `Parses` is the grammar of types on
these tokens: brackets behind a type make an array and bind tighter than the bar of a union, braces
hold an index signature, and parentheses group.  The grammar is unambiguous: a list of tokens has at
most one tree (`Parses.unique`).  To show that, `Finds` reads from the left and takes as much as it
can, so that its result is never in doubt, and whatever the grammar derives is found by it.
-/

namespace Typegen.Target.TypeScript

/-! ## Tokens -/

/-- A token of a type. -/
inductive Token where
  | word (name : String)
  /-- A string literal, by its value. -/
  | text (value : String)
  | mark (c : Char)
  deriving DecidableEq, Repr

/-- The characters that names have.  Which characters beyond ASCII are letters is left open. -/
def isNamePart (c : Char) : Bool :=
  Text.isIdentifierTail c || c == '$' || decide (0x80 ≤ c.toNat)

/-- The characters that names begin with. -/
def isNameHead (c : Char) : Bool := isNamePart c && !Text.isDigit c

/-- The marks in types. -/
def marks : List Char := ['(', ')', '[', ']', '\x7b', '\x7d', '|', ':']

/-- The tokens of a text, whose words are as long as can be.  String literals have the escapes of
JSON. -/
def tokens (cs : List Char) : Option (List Token) :=
  match cs with
  | [] => some []
  | c :: cs =>
    if c = ' ' then tokens cs
    else if c ∈ marks then (tokens cs).map (.mark c :: ·)
    else if c = '"' then
      match _hread : Json.readString cs with
      | .ok (value, rest) => do return .text (← Json.text? value) :: (← tokens rest)
      | .error _ => none
    else if isNameHead c then
      (tokens (cs.dropWhile isNamePart)).map
        (.word (String.ofList (c :: cs.takeWhile isNamePart)) :: ·)
    else none
termination_by cs.length
decreasing_by
  · simp
  · simp
  · have htakes := Json.takes_readString cs
    rw [_hread] at htakes
    cases htakes with
    | read hlength => exact Nat.lt_succ_of_lt hlength
  · exact Nat.lt_succ_of_le (List.dropWhile_suffix _).length_le

theorem tokens_nil : tokens [] = some [] := by
  rw [tokens]

theorem tokens_space (cs : List Char) : tokens (' ' :: cs) = tokens cs := by
  rw [tokens, if_pos rfl]

theorem tokens_mark {c : Char} (hc : c ∈ marks) (cs : List Char) :
    tokens (c :: cs) = (tokens cs).map (.mark c :: ·) := by
  rw [tokens, if_neg, if_pos hc]
  rintro rfl
  exact absurd hc (by decide)

theorem tokens_text {cs rest : List Char} {value : String}
    (h : Json.readString cs = .ok (value.toList.map .char, rest)) :
    tokens ('"' :: cs) = (tokens rest).map (.text value :: ·) := by
  rw [tokens, if_neg (by decide), if_neg (by decide), if_pos rfl]
  split
  · next h' =>
    rw [h] at h'
    cases h'
    rw [Json.text?_map_char]
    cases tokens rest <;> rfl
  · next h' =>
    rw [h] at h'
    cases h'

/-- A name as a whole. -/
def isName : List Char → Bool
  | [] => false
  | c :: cs => isNameHead c && cs.all isNamePart

/-- A text that does not continue a word. -/
def Separate (rest : List Char) : Prop := ∀ c ∈ rest.head?, isNamePart c = false

theorem separate_cons {c : Char} (hc : isNamePart c = false) (rest : List Char) :
    Separate (c :: rest) := by
  simpa [Separate] using hc

theorem tokens_name {name : String} {rest : List Char} (hname : isName name.toList = true)
    (hrest : Separate rest) :
    tokens (name.toList ++ rest) = (tokens rest).map (.word name :: ·) := by
  rcases hcs : name.toList with _ | ⟨c, cs⟩
  · rw [hcs] at hname
    cases hname
  · rw [hcs, isName, Bool.and_eq_true, List.all_eq_true] at hname
    obtain ⟨hhead, htail⟩ := hname
    have hmarks : (' ' :: '"' :: marks).all (fun d => !isNameHead d) = true := by decide
    have hother : ∀ d ∈ ' ' :: '"' :: marks, d ≠ c := by
      rintro d hd rfl
      have hmark := List.all_eq_true.1 hmarks d hd
      rw [hhead] at hmark
      cases hmark
    have htake : rest.takeWhile isNamePart = [] ∧ rest.dropWhile isNamePart = rest := by
      rcases rest with _ | ⟨d, rest⟩
      · exact ⟨rfl, rfl⟩
      · simp [hrest d rfl]
    rw [List.cons_append, tokens, if_neg (hother _ (by simp)).symm,
      if_neg fun hmem => hother c (by simp [hmem]) rfl, if_neg (hother _ (by simp)).symm,
      if_pos hhead, List.takeWhile_append_of_pos htail, List.dropWhile_append_of_pos htail,
      htake.1, htake.2, List.append_nil, ← hcs, String.ofList_toList]

/-! ## The grammar of types -/

/-- A type as it is read. -/
inductive TypeTree where
  | keyword (word : String)
  | reference (name : String)
  | literal (value : String)
  | array (item : TypeTree)
  /-- An object with an index signature for strings. -/
  | index (item : TypeTree)
  | union (left right : TypeTree)
  deriving DecidableEq, Repr

/-- The words that are types by themselves. -/
def keywords : List String :=
  ["any", "bigint", "boolean", "never", "null", "number", "object", "string", "symbol",
    "undefined", "unknown", "void"]

/-- How tightly a type holds together. -/
inductive Level where
  | primary
  | array
  | union
  deriving DecidableEq, Repr

/-- The tokens in front of the type in an index signature, with the name of the key. -/
def indexTokens (key : String) : List Token :=
  [.mark '\x7b', .mark '[', .word key, .mark ':', .word "string", .mark ']', .mark ':']

/-- The grammar of types. -/
inductive Parses : Level → List Token → TypeTree → Prop
  | keyword {word : String} (h : word ∈ keywords) : Parses .primary [.word word] (.keyword word)
  | reference {name : String} (h : name ∉ keywords) :
      Parses .primary [.word name] (.reference name)
  | literal (value : String) : Parses .primary [.text value] (.literal value)
  | group {ts : List Token} {tree : TypeTree} (h : Parses .union ts tree) :
      Parses .primary (.mark '(' :: (ts ++ [.mark ')'])) tree
  | index {ts : List Token} {tree : TypeTree} (key : String) (h : Parses .union ts tree) :
      Parses .primary (indexTokens key ++ (ts ++ [.mark '\x7d'])) (.index tree)
  | single {ts : List Token} {tree : TypeTree} (h : Parses .primary ts tree) :
      Parses .array ts tree
  | array {ts : List Token} {tree : TypeTree} (h : Parses .array ts tree) :
      Parses .array (ts ++ [.mark '[', .mark ']']) (.array tree)
  | member {ts : List Token} {tree : TypeTree} (h : Parses .array ts tree) :
      Parses .union ts tree
  | union {ts us : List Token} {left right : TypeTree} (h : Parses .union ts left)
      (h' : Parses .array us right) : Parses .union (ts ++ .mark '|' :: us) (.union left right)

/-! ## Reading from the left -/

/-- What is read next: a type of some level, or what continues the array or the union that has been
read so far. -/
inductive Goal where
  | type (level : Level)
  | brackets (sofar : TypeTree)
  | bars (sofar : TypeTree)

/-- Reading from the left, as far as it goes: what is found and the tokens behind it. -/
inductive Finds : Goal → List Token → TypeTree → List Token → Prop
  | keyword {word : String} {rest : List Token} (h : word ∈ keywords) :
      Finds (.type .primary) (.word word :: rest) (.keyword word) rest
  | reference {name : String} {rest : List Token} (h : name ∉ keywords) :
      Finds (.type .primary) (.word name :: rest) (.reference name) rest
  | literal {value : String} {rest : List Token} :
      Finds (.type .primary) (.text value :: rest) (.literal value) rest
  | group {ts rest : List Token} {tree : TypeTree}
      (h : Finds (.type .union) ts tree (.mark ')' :: rest)) :
      Finds (.type .primary) (.mark '(' :: ts) tree rest
  | index {ts rest : List Token} {tree : TypeTree} (key : String)
      (h : Finds (.type .union) ts tree (.mark '\x7d' :: rest)) :
      Finds (.type .primary) (indexTokens key ++ ts) (.index tree) rest
  | array {ts rest left : List Token} {item tree : TypeTree}
      (h : Finds (.type .primary) ts item rest) (h' : Finds (.brackets item) rest tree left) :
      Finds (.type .array) ts tree left
  | brackets {ts rest : List Token} {item tree : TypeTree}
      (h : Finds (.brackets (.array item)) ts tree rest) :
      Finds (.brackets item) (.mark '[' :: .mark ']' :: ts) tree rest
  | noBracket {ts : List Token} {tree : TypeTree} (h : ts.head? ≠ some (.mark '[')) :
      Finds (.brackets tree) ts tree ts
  | union {ts rest left : List Token} {member tree : TypeTree}
      (h : Finds (.type .array) ts member rest) (h' : Finds (.bars member) rest tree left) :
      Finds (.type .union) ts tree left
  | bars {ts rest left : List Token} {sofar member tree : TypeTree}
      (h : Finds (.type .array) ts member rest)
      (h' : Finds (.bars (.union sofar member)) rest tree left) :
      Finds (.bars sofar) (.mark '|' :: ts) tree left
  | noBar {ts : List Token} {tree : TypeTree} (h : ts.head? ≠ some (.mark '|')) :
      Finds (.bars tree) ts tree ts

variable {ts : List Token} {tree : TypeTree}

/-- Reading from the left leaves no choice. -/
theorem Finds.unique {goal : Goal} {rest rest' : List Token} {tree' : TypeTree}
    (h : Finds goal ts tree rest) (h' : Finds goal ts tree' rest') :
    tree = tree' ∧ rest = rest' := by
  induction h generalizing tree' rest' with
  | keyword h =>
    cases h' with
    | keyword => exact ⟨rfl, rfl⟩
    | reference hname => exact absurd h hname
  | reference h =>
    cases h' with
    | keyword hword => exact absurd hword h
    | reference => exact ⟨rfl, rfl⟩
  | literal =>
    cases h'
    exact ⟨rfl, rfl⟩
  | group _ ih =>
    cases h' with
    | group h =>
      obtain ⟨rfl, hrest⟩ := ih h
      exact ⟨rfl, (List.cons.inj hrest).2⟩
  | index key _ ih =>
    cases h' with
    | index _ h =>
      obtain ⟨rfl, hrest⟩ := ih h
      exact ⟨rfl, (List.cons.inj hrest).2⟩
  | array _ _ ih ih' =>
    cases h' with
    | array h h' =>
      obtain ⟨rfl, rfl⟩ := ih h
      exact ih' h'
  | brackets _ ih =>
    cases h' with
    | brackets h => exact ih h
    | noBracket h => exact absurd rfl h
  | noBracket h =>
    cases h' with
    | brackets => exact absurd rfl h
    | noBracket => exact ⟨rfl, rfl⟩
  | union _ _ ih ih' =>
    cases h' with
    | union h h' =>
      obtain ⟨rfl, rfl⟩ := ih h
      exact ih' h'
  | bars _ _ ih ih' =>
    cases h' with
    | bars h h' =>
      obtain ⟨rfl, rfl⟩ := ih h
      exact ih' h'
    | noBar h => exact absurd rfl h
  | noBar h =>
    cases h' with
    | bars => exact absurd rfl h
    | noBar => exact ⟨rfl, rfl⟩

/-- A type of some level that begins a list of tokens is read from the left, together with what
continues it. -/
def Level.Found : Level → List Token → TypeTree → Prop
  | .primary, ts, tree => ∀ rest, Finds (.type .primary) (ts ++ rest) tree rest
  | .array, ts, tree => ∀ rest whole left, Finds (.brackets tree) rest whole left →
      Finds (.type .array) (ts ++ rest) whole left
  | .union, ts, tree => ∀ rest whole left, rest.head? ≠ some (.mark '[') →
      Finds (.bars tree) rest whole left → Finds (.type .union) (ts ++ rest) whole left

theorem Parses.found {level : Level} (h : Parses level ts tree) : level.Found ts tree := by
  induction h with
  | keyword h => exact fun rest => .keyword h
  | reference h => exact fun rest => .reference h
  | literal value => exact fun rest => .literal
  | group _ ih =>
    intro rest
    have hfound := ih (.mark ')' :: rest) _ _ (by simp) (.noBar (by simp))
    simpa using Finds.group hfound
  | index key _ ih =>
    intro rest
    have hfound := ih (.mark '\x7d' :: rest) _ _ (by simp) (.noBar (by simp))
    simpa using Finds.index key hfound
  | single _ ih => exact fun rest whole left hmore => .array (ih rest) hmore
  | array _ ih =>
    intro rest whole left hmore
    simpa using ih _ _ _ (.brackets hmore)
  | member _ ih =>
    exact fun rest whole left hrest hmore => .union (ih rest _ _ (.noBracket hrest)) hmore
  | union _ _ ih ih' =>
    intro rest whole left hrest hmore
    have hright := ih' rest _ _ (.noBracket hrest)
    simpa using ih _ _ _ (by simp) (.bars hright hmore)

/-- A list of tokens is read as at most one type. -/
theorem Parses.unique {tree' : TypeTree} (h : Parses .union ts tree) (h' : Parses .union ts tree') :
    tree = tree' := by
  have hfound := h.found [] _ _ (by simp) (.noBar (by simp))
  have hfound' := h'.found [] _ _ (by simp) (.noBar (by simp))
  exact (hfound.unique hfound').1

end Typegen.Target.TypeScript
