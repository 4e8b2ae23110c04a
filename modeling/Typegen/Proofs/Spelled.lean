import Typegen.Json.Reader
import Typegen.Proofs.Outcome

/-!
# The grammar of JSON texts

`Spells` is the grammar of JSON as a relation between a text, what its front spells and the text
behind that.  It knows nothing of keys that are repeated: an object has all the members that are
spelled.  The reader finds what is spelled when every object is kept as it is (`Spells.readsBack`),
and so a text spells at most one value.
-/

namespace Typegen.Json

/-! ## What reading takes -/

/-- Reading takes characters off the front of a text, or reports that the text is misspelled. -/
inductive Takes {α : Type} (cs : List Char) : Except Fault (α × List Char) → Prop
  | read {a : α} {rest : List Char} (h : rest.length < cs.length) : Takes cs (.ok (a, rest))
  | malformed (problem : Problem) (left : Nat) : Takes cs (.error (.malformed problem left))

theorem length_skipSpaces_le (cs : List Char) : (skipSpaces cs).length ≤ cs.length :=
  (List.dropWhile_suffix _).length_le

variable {cs rest more rest' : List Char} {v : Raw} {key : List Piece}

theorem Takes.bind {α β : Type} {cs' : List Char} {x : Except Fault (α × List Char)}
    {f : α × List Char → Except Fault (β × List Char)} (hx : Takes cs x)
    (hf : ∀ a rest, rest.length < cs.length → Takes cs' (f (a, rest))) : Takes cs' (x >>= f) := by
  cases hx with
  | read h => exact hf _ _ h
  | malformed problem left => exact .malformed problem left

theorem takes_readPieces (opening : Nat) (cs : List Char) : Takes cs (readPieces opening cs) := by
  fun_induction readPieces opening cs with
  | case1 | case4 | case5 | case7 | case8 | case9 => exact .malformed _ _
  | case2 rest => exact .read (by simp)
  | case3 a b c d rest n _ _ ih | case6 c rest _ _ e _ ih | case10 c rest _ _ _ _ _ _ ih =>
    refine ih.bind fun ps rest' h => .read ?_
    simp only [List.length_cons]
    omega

theorem takes_readString (cs : List Char) : Takes cs (readString cs) :=
  (takes_readPieces _ cs).bind fun _ _ h => .read h

/-- A string without halves of pairs is a text. -/
theorem text?_map_char (s : String) : text? (s.toList.map .char) = some s := by
  have hchars : ∀ cs : List Char, chars? (cs.map .char) = some cs := by
    intro cs
    induction cs with
    | nil => rfl
    | cons c cs ih => rw [List.map_cons, chars?, ih, Option.map_some]
  rw [text?, hchars, Option.map_some, String.ofList_toList]

theorem length_spanDigits_le (cs : List Char) : (spanDigits cs).2.length ≤ cs.length :=
  (List.dropWhile_suffix _).length_le

theorem length_readWhole {ds : List Char} (h : readWhole cs = some (ds, rest)) :
    rest.length < cs.length := by
  unfold readWhole at h
  split at h
  · cases h
    simp
  · next c left _ =>
    split_ifs at h with hdigit
    cases h
    have hle := length_spanDigits_le left
    rw [List.dropWhile_cons_of_pos hdigit]
    exact Nat.lt_succ_of_le hle
  · cases h

theorem length_readFraction {ds : List Char} (h : readFraction cs = some (ds, rest)) :
    rest.length ≤ cs.length := by
  unfold readFraction at h
  split at h
  · split_ifs at h
    cases h
    exact Nat.le_succ_of_le (length_spanDigits_le _)
  · cases h

theorem length_readSignedDigits {n : Int} (h : readSignedDigits cs = some (n, rest)) :
    rest.length ≤ cs.length := by
  unfold readSignedDigits at h
  split at h
  · split_ifs at h
    cases h
    exact Nat.le_succ_of_le (length_spanDigits_le _)
  · split_ifs at h
    cases h
    exact Nat.le_succ_of_le (length_spanDigits_le _)
  · split_ifs at h
    cases h
    exact length_spanDigits_le _

theorem length_readExponent {n : Int} (h : readExponent cs = some (n, rest)) :
    rest.length ≤ cs.length := by
  unfold readExponent at h
  split at h
  · exact Nat.le_succ_of_le (length_readSignedDigits h)
  · exact Nat.le_succ_of_le (length_readSignedDigits h)
  · cases h

/-- A value that is neither a string nor a container. -/
inductive Atomic : Raw → Prop
  | null : Atomic .null
  | bool (b : Bool) : Atomic (.bool b)
  | int (n : Int) : Atomic (.int n)
  | float (x : Binary64) : Atomic (.float x)

theorem Atomic.ne_object (h : Atomic v) (ms : List (List Piece × Raw)) : v ≠ .object ms := by
  rintro rfl
  cases h

theorem atomic_of_integer {negative : Bool} {ds : List Char} (h : integer negative ds = .ok v) :
    Atomic v := by
  unfold integer at h
  split at h
  · cases h
    exact .int _
  · cases h

theorem atomic_of_readUnsigned {negative : Bool} {x : Except Problem Raw}
    (h : readUnsigned negative cs = some (x, rest)) :
    (∀ v, x = .ok v → Atomic v) ∧ rest.length < cs.length := by
  unfold readUnsigned at h
  rw [Option.bind_eq_bind, Option.bind_eq_some_iff] at h
  obtain ⟨⟨whole, left⟩, hwhole, h⟩ := h
  have hwhole := length_readWhole hwhole
  have hfraction : ((readFraction left).getD ([], left)).2.length ≤ left.length := by
    cases hf : readFraction left with
    | none => exact Nat.le_refl _
    | some r => exact length_readFraction hf
  have hexponent (more : List Char) :
      ((readExponent more).getD (0, more)).2.length ≤ more.length := by
    cases he : readExponent more with
    | none => exact Nat.le_refl _
    | some r => exact length_readExponent he
  simp only at h
  split at h
  · cases h
    exact ⟨fun v => atomic_of_integer, hwhole⟩
  · cases h
    refine ⟨?_, Nat.lt_of_le_of_lt (Nat.le_trans (hexponent _) hfraction) hwhole⟩
    rintro v ⟨⟩
    exact .float _

theorem atomic_of_readNumber {x : Except Problem Raw} (h : readNumber cs = some (x, rest)) :
    (∀ v, x = .ok v → Atomic v) ∧ rest.length < cs.length := by
  unfold readNumber at h
  split at h
  · obtain ⟨hatomic, hlength⟩ := atomic_of_readUnsigned h
    exact ⟨hatomic, Nat.lt_succ_of_lt hlength⟩
  · exact atomic_of_readUnsigned h

theorem readAtom_cases (cs : List Char) :
    (∃ v rest, Atomic v ∧ rest.length < cs.length ∧ readAtom cs = .ok (v, rest)) ∨
      ∃ problem left, readAtom cs = .error (.malformed problem left) := by
  unfold readAtom
  split
  · exact .inl ⟨_, _, .null, by simp only [List.length_cons]; omega, rfl⟩
  · exact .inl ⟨_, _, .bool true, by simp only [List.length_cons]; omega, rfl⟩
  · exact .inl ⟨_, _, .bool false, by simp only [List.length_cons]; omega, rfl⟩
  · exact .inl ⟨_, _, .float _, by simp only [List.length_cons]; omega, rfl⟩
  · exact .inl ⟨_, _, .float _, by simp only [List.length_cons]; omega, rfl⟩
  · exact .inl ⟨_, _, .float _, by simp only [List.length_cons]; omega, rfl⟩
  · unfold readNumeral
    split
    · next v rest hr =>
      obtain ⟨hatomic, hlength⟩ := atomic_of_readNumber hr
      exact .inl ⟨v, rest, hatomic v rfl, hlength, rfl⟩
    · exact .inr ⟨_, _, rfl⟩
    · exact .inr ⟨_, _, rfl⟩

theorem takes_readAtom (cs : List Char) : Takes cs (readAtom cs) := by
  rcases readAtom_cases cs with ⟨v, rest, -, hlength, h⟩ | ⟨problem, left, h⟩
  · rw [h]
    exact .read hlength
  · rw [h]
    exact .malformed problem left

theorem atomic_of_readAtom (h : readAtom cs = .ok (v, rest)) : Atomic v := by
  rcases readAtom_cases cs with ⟨v, rest, hatomic, -, h'⟩ | ⟨problem, left, h'⟩
  · rw [h'] at h
    cases h
    exact hatomic
  · rw [h'] at h
    cases h

/-! ## The grammar -/

/-- What a stretch of text can spell: a value, or the rest of a container up to its closing mark. -/
inductive Part where
  | value (v : Raw)
  | items (vs : List Raw)
  | members (ms : List (List Piece × Raw))

/-- A text begins with a key and a colon, behind which a value is to follow. -/
def SpellsKey (cs : List Char) (key : List Piece) (rest : List Char) : Prop :=
  ∃ quoted left more, cs = '"' :: quoted ∧ readString quoted = .ok (key, left) ∧
    skipSpaces left = ':' :: more ∧ rest = skipSpaces more

/-- A text begins with the spelling of a part and goes on with the given rest.  An object has all
the members that are spelled, also those that repeat a key. -/
inductive Spells : List Char → Part → List Char → Prop
  | atom {cs rest : List Char} {v : Raw} (h : readAtom cs = .ok (v, rest)) :
      Spells cs (.value v) rest
  | string {cs rest : List Char} {s : List Piece} (h : readString cs = .ok (s, rest)) :
      Spells ('"' :: cs) (.value (.string s)) rest
  | emptyArray {cs rest : List Char} (h : skipSpaces cs = ']' :: rest) :
      Spells ('[' :: cs) (.value (.array [])) rest
  | array {cs rest : List Char} {vs : List Raw} (h : Spells (skipSpaces cs) (.items vs) rest) :
      Spells ('[' :: cs) (.value (.array vs)) rest
  | emptyObject {cs rest : List Char} (h : skipSpaces cs = '\x7d' :: rest) :
      Spells ('\x7b' :: cs) (.value (.object [])) rest
  | object {cs rest : List Char} {ms : List (List Piece × Raw)}
      (h : Spells (skipSpaces cs) (.members ms) rest) :
      Spells ('\x7b' :: cs) (.value (.object ms)) rest
  | lastItem {cs left rest : List Char} {v : Raw} (hv : Spells cs (.value v) left)
      (hclose : skipSpaces left = ']' :: rest) : Spells cs (.items [v]) rest
  | item {cs left more rest : List Char} {v : Raw} {vs : List Raw}
      (hv : Spells cs (.value v) left) (hcomma : skipSpaces left = ',' :: more)
      (hvs : Spells (skipSpaces more) (.items vs) rest) : Spells cs (.items (v :: vs)) rest
  | lastMember {cs inside left rest : List Char} {key : List Piece} {v : Raw}
      (hkey : SpellsKey cs key inside) (hv : Spells inside (.value v) left)
      (hclose : skipSpaces left = '\x7d' :: rest) : Spells cs (.members [(key, v)]) rest
  | member {cs inside left more rest : List Char} {key : List Piece} {v : Raw}
      {ms : List (List Piece × Raw)} (hkey : SpellsKey cs key inside)
      (hv : Spells inside (.value v) left) (hcomma : skipSpaces left = ',' :: more)
      (hms : Spells (skipSpaces more) (.members ms) rest) :
      Spells cs (.members ((key, v) :: ms)) rest

/-! ## Lengths -/

theorem Takes.length_lt {α : Type} {a : α} {x : Except Fault (α × List Char)} (h : Takes cs x)
    (hx : x = .ok (a, rest)) : rest.length < cs.length := by
  cases h with
  | read h => cases hx; exact h
  | malformed => cases hx

theorem length_lt_of_skipSpaces {c : Char} (h : skipSpaces cs = c :: rest) :
    rest.length < cs.length := by
  have hle := length_skipSpaces_le cs
  rw [h, List.length_cons] at hle
  omega

theorem SpellsKey.length_lt (h : SpellsKey cs key rest) : rest.length < cs.length := by
  obtain ⟨quoted, left, more, rfl, hread, hcolon, rfl⟩ := h
  have hkey := (takes_readString quoted).length_lt hread
  have hmore := length_lt_of_skipSpaces hcolon
  have hrest := length_skipSpaces_le more
  rw [List.length_cons]
  omega

variable {part : Part}

theorem Spells.length_lt (h : Spells cs part rest) : rest.length < cs.length := by
  induction h with
  | @atom cs _ _ h => exact (takes_readAtom cs).length_lt h
  | @string cs _ _ h => exact Nat.lt_succ_of_lt ((takes_readString cs).length_lt h)
  | emptyArray h | emptyObject h => exact Nat.lt_succ_of_lt (length_lt_of_skipSpaces h)
  | @array cs _ _ _ ih | @object cs _ _ _ ih =>
    exact Nat.lt_succ_of_lt (Nat.lt_of_lt_of_le ih (length_skipSpaces_le cs))
  | lastItem _ hclose ih => exact Nat.lt_trans (length_lt_of_skipSpaces hclose) ih
  | @item _ _ more _ _ _ _ hcomma _ ihv ihvs =>
    have hmore := length_lt_of_skipSpaces hcomma
    have hskip := length_skipSpaces_le more
    omega
  | lastMember hkey _ hclose ih =>
    have hkey := hkey.length_lt
    have hclose := length_lt_of_skipSpaces hclose
    omega
  | @member _ _ _ more _ _ _ _ hkey _ hcomma _ ihv ihms =>
    have hkey := hkey.length_lt
    have hmore := length_lt_of_skipSpaces hcomma
    have hskip := length_skipSpaces_le more
    omega

/-! ## Reading back -/

/-- All members of an object are kept. -/
def verbatim : Closing := fun members => .ok (.object members)

theorem not_readAtom {c : Char} {r : Raw × List Char} (h : c ∈ ['"', '[', '\x7b', ']']) :
    readAtom (c :: cs) ≠ .ok r := by
  have hfails : readAtom (c :: cs) = .error (.malformed .expectingValue (cs.length + 1)) := by
    simp only [List.mem_cons, List.not_mem_nil, or_false] at h
    rcases h with rfl | rfl | rfl | rfl <;> rfl
  rw [hfails]
  simp

theorem Spells.ne_bracket (h : Spells cs part rest) : cs ≠ ']' :: more := by
  induction h with
  | atom h =>
    rintro rfl
    exact not_readAtom (by simp) h
  | string | emptyArray | array | emptyObject | object => simp
  | lastItem _ _ ih => exact ih
  | item _ _ _ ih => exact ih
  | lastMember hkey | member hkey =>
    obtain ⟨quoted, left, more, rfl, -⟩ := hkey
    simp

theorem SpellsKey.ne_brace (h : SpellsKey cs key rest) : cs ≠ '\x7d' :: more := by
  obtain ⟨quoted, left, more, rfl, -⟩ := h
  simp

theorem Spells.ne_brace {ms : List (List Piece × Raw)} (h : Spells cs (.members ms) rest) :
    cs ≠ '\x7d' :: more := by
  cases h with
  | lastMember hkey => exact hkey.ne_brace
  | member hkey => exact hkey.ne_brace

section

variable {close : Closing} {fuel : Nat} {cs rest left more : List Char}

theorem readValue_atom {r : Raw × List Char} (h : readAtom cs = .ok r) :
    readValue close (fuel + 1) cs = .ok r := by
  unfold readValue
  split
  · exact absurd h (not_readAtom (by simp))
  · exact absurd h (not_readAtom (by simp))
  · exact absurd h (not_readAtom (by simp))
  · exact h

theorem readValue_string {s : List Piece} (h : readString cs = .ok (s, rest)) :
    readValue close (fuel + 1) ('"' :: cs) = .ok (.string s, rest) := by
  simp only [readValue, h]
  rfl

theorem readValue_emptyArray (h : skipSpaces cs = ']' :: rest) :
    readValue close (fuel + 1) ('[' :: cs) = .ok (.array [], rest) := by
  simp only [readValue, h]

theorem readValue_array (hne : ∀ more, skipSpaces cs ≠ ']' :: more) :
    readValue close (fuel + 1) ('[' :: cs) =
      readItems close fuel (skipSpaces cs) >>= fun r => pure (.array r.1, r.2) := by
  simp only [readValue]

theorem readValue_emptyObject (h : skipSpaces cs = '\x7d' :: rest) :
    readValue close (fuel + 1) ('\x7b' :: cs) = close [] >>= fun v => pure (v, rest) := by
  simp only [readValue, h]

theorem readValue_object (hne : ∀ more, skipSpaces cs ≠ '\x7d' :: more) :
    readValue close (fuel + 1) ('\x7b' :: cs) =
      readMembers close fuel (skipSpaces cs) >>= fun r =>
        close r.1 >>= fun v => pure (v, r.2) := by
  simp only [readValue]

/-- What holds other values. -/
inductive Container where
  | array
  | object

/-- The mark that closes a container. -/
def Container.closing : Container → Char
  | array => ']'
  | object => '\x7d'

/-- What a reader does behind the value of an entry: the container is closed there, or more entries
follow behind a comma. -/
def afterEntry {α : Type} (c : Container) (last : Raw → α) (add : Raw → α → α)
    (later : List Char → Except Fault (α × List Char)) (r : Raw × List Char) :
    Except Fault (α × List Char) :=
  match skipSpaces r.2 with
  | [] => .error (.malformed .expectingComma 0)
  | m :: rest =>
    if m = c.closing then .ok (last r.1, rest)
    else if m = ',' then later (skipSpaces rest) >>= fun s => pure (add r.1 s.1, s.2)
    else .error (.malformed .expectingComma (rest.length + 1))

theorem readItems_eq : readItems close (fuel + 1) cs = readValue close fuel cs >>=
    afterEntry .array (fun v => [v]) List.cons (readItems close fuel) := by
  rw [readItems]
  refine bind_congr ?_
  rintro ⟨v, left⟩
  simp only [afterEntry, Container.closing]
  generalize skipSpaces left = ahead
  split
  · rfl
  · rfl
  · next hclose hcomma =>
    cases ahead with
    | nil => rfl
    | cons m rest =>
      have hm : m ≠ ']' := fun h => hclose rest (h ▸ rfl)
      have hm' : m ≠ ',' := fun h => hcomma rest (h ▸ rfl)
      simp only [hm, hm', if_false, List.length_cons]

theorem readMembers_eq {key : List Piece} {inside : List Char} (hkey : SpellsKey cs key inside) :
    readMembers close (fuel + 1) cs = readValue close fuel inside >>=
      afterEntry .object (fun v => [(key, v)]) (fun v ms => (key, v) :: ms)
        (readMembers close fuel) := by
  obtain ⟨quoted, left, more, rfl, hread, hcolon, rfl⟩ := hkey
  simp only [readMembers, hread, bind, Except.bind, hcolon]
  cases readValue close fuel (skipSpaces more) with
  | error e => rfl
  | ok r =>
    simp only [afterEntry, Container.closing]
    generalize skipSpaces r.2 = ahead
    split
    · rfl
    · rfl
    · next hclose hcomma =>
      cases ahead with
      | nil => rfl
      | cons m rest =>
        have hm : m ≠ '\x7d' := fun h => hclose rest (h ▸ rfl)
        have hm' : m ≠ ',' := fun h => hcomma rest (h ▸ rfl)
        simp only [hm, hm', if_false, List.length_cons]

section

variable {α : Type} {c : Container} {last : Raw → α} {add : Raw → α → α}
  {later : List Char → Except Fault (α × List Char)} {v : Raw}

theorem afterEntry_closing (h : skipSpaces left = c.closing :: rest) :
    afterEntry c last add later (v, left) = .ok (last v, rest) := by
  simp only [afterEntry, h, if_true]

theorem afterEntry_comma (h : skipSpaces left = ',' :: more) :
    afterEntry c last add later (v, left) =
      later (skipSpaces more) >>= fun s => pure (add v s.1, s.2) := by
  have hne : ',' ≠ c.closing := by cases c <;> decide
  simp only [afterEntry, h, if_neg hne, if_true]

theorem afterEntry_stuck (hclose : ∀ rest, skipSpaces left ≠ c.closing :: rest)
    (hcomma : ∀ more, skipSpaces left ≠ ',' :: more) :
    afterEntry c last add later (v, left) =
      .error (.malformed .expectingComma (skipSpaces left).length) := by
  simp only [afterEntry]
  rcases hahead : skipSpaces left with _ | ⟨m, rest⟩
  · rfl
  · have hm : m ≠ c.closing := fun h => hclose rest (h ▸ hahead)
    have hm' : m ≠ ',' := fun h => hcomma rest (h ▸ hahead)
    simp only [hm, hm', if_false, List.length_cons]

end

/-- Without a key the reader stops in the same way, whatever becomes of objects. -/
theorem readMembers_keyless (h : ∀ key inside, ¬ SpellsKey cs key inside) (fuel : Nat) :
    ∃ problem left, ∀ close,
      readMembers close (fuel + 1) cs = .error (.malformed problem left) := by
  by_cases hquote : ∃ quoted, cs = '"' :: quoted
  · obtain ⟨quoted, rfl⟩ := hquote
    have htakes := takes_readString quoted
    generalize hread : readString quoted = r at htakes
    cases htakes with
    | malformed problem left =>
      refine ⟨problem, left, fun close => ?_⟩
      simp only [readMembers, hread, bind, Except.bind]
    | @read key left _ =>
      refine ⟨.expectingColon, (skipSpaces left).length, fun close => ?_⟩
      simp only [readMembers, hread, bind, Except.bind]
      split
      · next more hcolon => exact absurd ⟨quoted, left, more, rfl, hread, hcolon, rfl⟩ (h key _)
      · rfl
  · refine ⟨.expectingName, cs.length, fun close => ?_⟩
    unfold readMembers
    split
    · next quoted => exact absurd ⟨quoted, rfl⟩ hquote
    · rfl

end

/-- Two steps for each character are enough to read a part of a text. -/
def Part.ReadsBack (fuel : Nat) (cs rest : List Char) : Part → Prop
  | .value v => 2 * cs.length + 1 ≤ fuel → readValue verbatim fuel cs = .ok (v, rest)
  | .items vs => 2 * cs.length + 2 ≤ fuel → readItems verbatim fuel cs = .ok (vs, rest)
  | .members ms => 2 * cs.length + 2 ≤ fuel → readMembers verbatim fuel cs = .ok (ms, rest)

theorem Spells.readsBack (h : Spells cs part rest) (fuel : Nat) : part.ReadsBack fuel cs rest := by
  induction h generalizing fuel with
    (intro hfuel; obtain ⟨fuel, rfl⟩ : ∃ n, fuel = n + 1 := ⟨fuel - 1, by omega⟩)
  | atom h => exact readValue_atom h
  | string h => exact readValue_string h
  | emptyArray h => exact readValue_emptyArray h
  | @array cs rest vs h ih =>
    have hskip := length_skipSpaces_le cs
    rw [List.length_cons] at hfuel
    rw [readValue_array fun _ => h.ne_bracket, ih fuel (by omega)]
    rfl
  | emptyObject h => exact readValue_emptyObject h
  | @object cs rest ms h ih =>
    have hskip := length_skipSpaces_le cs
    rw [List.length_cons] at hfuel
    rw [readValue_object fun _ => h.ne_brace, ih fuel (by omega)]
    rfl
  | lastItem hv hclose ih =>
    rw [readItems_eq, ih fuel (by omega), ok_bind]
    exact afterEntry_closing hclose
  | @item _ _ more _ _ _ hv hcomma hvs ihv ihvs =>
    have hlength := hv.length_lt
    have hmore := length_lt_of_skipSpaces hcomma
    have hskip := length_skipSpaces_le more
    rw [readItems_eq, ihv fuel (by omega), ok_bind, afterEntry_comma hcomma, ihvs fuel (by omega)]
    rfl
  | lastMember hkey hv hclose ih =>
    have hinside := hkey.length_lt
    rw [readMembers_eq hkey, ih fuel (by omega), ok_bind]
    exact afterEntry_closing hclose
  | @member _ _ _ more _ _ _ _ hkey hv hcomma hms ihv ihms =>
    have hinside := hkey.length_lt
    have hlength := hv.length_lt
    have hmore := length_lt_of_skipSpaces hcomma
    have hskip := length_skipSpaces_le more
    rw [readMembers_eq hkey, ihv fuel (by omega), ok_bind, afterEntry_comma hcomma,
      ihms fuel (by omega)]
    rfl

/-! ## One spelling for each text -/

theorem Spells.value_unique {v' : Raw} (h : Spells cs (.value v) rest)
    (h' : Spells cs (.value v') rest') : v = v' ∧ rest = rest' := by
  have hread := h.readsBack _ (Nat.le_refl _)
  rw [h'.readsBack _ (Nat.le_refl _)] at hread
  cases hread
  exact ⟨rfl, rfl⟩

theorem Spells.members_unique {ms ms' : List (List Piece × Raw)} (h : Spells cs (.members ms) rest)
    (h' : Spells cs (.members ms') rest') : ms = ms' ∧ rest = rest' := by
  have hread := h.readsBack _ (Nat.le_refl _)
  rw [h'.readsBack _ (Nat.le_refl _)] at hread
  cases hread
  exact ⟨rfl, rfl⟩

theorem SpellsKey.unique {key' : List Piece} (h : SpellsKey cs key rest) (h' : SpellsKey cs key' rest') :
    key = key' ∧ rest = rest' := by
  obtain ⟨quoted, left, more, rfl, hread, hcolon, rfl⟩ := h
  obtain ⟨quoted', left', more', heq, hread', hcolon', rfl⟩ := h'
  cases heq
  rw [hread] at hread'
  cases hread'
  rw [hcolon] at hcolon'
  cases hcolon'
  exact ⟨rfl, rfl⟩

end Typegen.Json
