import Mathlib.Data.List.Flatten
import Mathlib.Data.List.TakeWhile
import Typegen.Proofs.Comments
import Typegen.Proofs.GoImports
import Typegen.Proofs.Literals

/-!
# Keys in the tags of fields

`readField` reads a field of a struct as the package for JSON does.  The tag is a raw string, in it a
quoted value stands behind `json:`, and the value is a name with options.  A key is written into its
tag as it is, so a key that holds a character with a meaning there is not read back.  Nor is the empty
key, in whose place the name of the field is used, and the key `-` means that the field is skipped.
Every other key is read back (`tags_carry_keys`).

That no other key gets through follows from counting bytes: what is read is never longer than what was
written, and it is shorter as soon as an escape, a carriage return or the rest behind a quote is gone.
-/

namespace Typegen.Target.Go

open Text (hexNumber? isPlainIdentifier)
open Schema (resolve)

/-! ## Bytes -/

/-- The bytes of a text. -/
def utf8 (cs : List Char) : List UInt8 := cs.flatMap String.utf8EncodeChar

theorem utf8_cons (c : Char) (cs : List Char) :
    utf8 (c :: cs) = String.utf8EncodeChar c ++ utf8 cs :=
  List.flatMap_cons

theorem utf8_append (cs ds : List Char) : utf8 (cs ++ ds) = utf8 cs ++ utf8 ds :=
  List.flatMap_append

theorem length_utf8_cons (c : Char) (cs : List Char) :
    (utf8 (c :: cs)).length = c.utf8Size + (utf8 cs).length := by
  rw [utf8_cons, List.length_append, String.length_utf8EncodeChar]

variable {cs : List Char} {key : String} {v : List UInt8} {absent : Bool}

/-- Texts are told apart by their bytes. -/
theorem utf8_injective {ds : List Char} (h : utf8 cs = utf8 ds) : cs = ds := by
  have hbytes : cs.utf8Encode = ds.utf8Encode := congrArg List.toByteArray h
  rw [← String.toByteArray_ofList, ← String.toByteArray_ofList] at hbytes
  exact String.ofList_injective (String.toByteArray_inj.1 hbytes)

theorem eq_of_sublist {ds : List Char} (h : cs.Sublist ds)
    (hlength : (utf8 ds).length ≤ (utf8 cs).length) : cs = ds :=
  utf8_injective ((h.flatMap String.utf8EncodeChar).eq_of_length_le hlength)

/-- The byte of a comma. -/
def comma : UInt8 := 0x2c

/-- The bytes of a longer character are 128 and more. -/
theorem eq_comma_of_mem {c : Char} (h : comma ∈ String.utf8EncodeChar c) : c = ',' := by
  have heq (n : Nat) : comma = UInt8.ofNat n ↔ n % 256 = 0x2c := by
    rw [eq_comm, UInt8.ofNat_eq_iff_mod_eq_toNat]
    rfl
  unfold String.utf8EncodeChar at h
  simp only [apply_ite (comma ∈ ·), List.mem_cons, List.not_mem_nil, or_false, heq] at h
  apply Char.toNat_inj.1
  change c.val.toNat = 0x2c
  split_ifs at h <;> omega

theorem comma_mem_utf8 : comma ∈ utf8 cs ↔ ',' ∈ cs := by
  rw [utf8, List.mem_flatMap]
  constructor
  · rintro ⟨c, hc, hcomma⟩
    rwa [eq_comma_of_mem hcomma] at hc
  · intro h
    exact ⟨',', h, by decide⟩

/-! ## Reading a field -/

/-- The escapes of one character. -/
def shortEscapes : List (Char × UInt8) :=
  [('a', 0x07), ('b', 0x08), ('t', 0x09), ('n', 0x0a), ('v', 0x0b), ('f', 0x0c), ('r', 0x0d),
    ('"', 0x22), ('\\', 0x5c)]

/-- The bytes of the character with the given number, if there is one. -/
def rune? (n : Nat) : Option (List UInt8) :=
  if n.isValidChar then some (String.utf8EncodeChar (Char.ofNat n)) else none

/-- The value of an octal digit. -/
def octalDigit? (c : Char) : Option Nat :=
  if '0' ≤ c ∧ c ≤ '7' then some (c.toNat - '0'.toNat) else none

/-- The byte with the given octal digits, if they are not too great. -/
def octalByte? (a b c : Char) : Option UInt8 := do
  let n := 64 * (← octalDigit? a) + 8 * (← octalDigit? b) + (← octalDigit? c)
  if n < 256 then return UInt8.ofNat n else none

/-- The value of a string literal, given what stands between its quotes. -/
def unquote? : List Char → Option (List UInt8)
  | '\\' :: 'x' :: a :: b :: rest => do
    return UInt8.ofNat (← hexNumber? [a, b]) :: (← unquote? rest)
  | '\\' :: 'u' :: a :: b :: c :: d :: rest => do
    return (← rune? (← hexNumber? [a, b, c, d])) ++ (← unquote? rest)
  | '\\' :: 'U' :: a :: b :: c :: d :: e :: f :: g :: h :: rest => do
    return (← rune? (← hexNumber? [a, b, c, d, e, f, g, h])) ++ (← unquote? rest)
  | '\\' :: a :: rest =>
    match shortEscapes.lookup a with
    | some n => do return n :: (← unquote? rest)
    | none =>
      match rest with
      | b :: c :: rest => do return (← octalByte? a b c) :: (← unquote? rest)
      | _ => none
  | c :: rest =>
    if c = '\\' || c = '\n' then none
    else do return String.utf8EncodeChar c ++ (← unquote? rest)
  | [] => some []

/-- The value of a raw string, given what stands behind its first backquote: all up to the next
backquote but for carriage returns. -/
def rawValue (cs : List Char) : List Char := (cs.takeWhile (· ≠ '\x60')).filter (· ≠ '\r')

/-- The value for the key `json` in a tag that has this key first, and nothing if the value cannot be
read. -/
def jsonValue : List Char → List UInt8
  | 'j' :: 's' :: 'o' :: 'n' :: ':' :: '"' :: rest =>
    ((splitQuote rest).bind fun r => unquote? r.1).getD []
  | _ => []

/-- The tag behind the type of a field, which is empty if the field has none. -/
def tagOf (cs : List Char) : List Char := rawValue ((cs.dropWhile (· ≠ '\x60')).drop 1)

/-- What a field of a struct is in JSON. -/
inductive JsonField where
  /-- It is left out. -/
  | skipped
  /-- It has a name, and may be left out if its value is empty. -/
  | named (name : List UInt8) (omitEmpty : Bool)
  deriving DecidableEq

/-- The name in the value of a tag. -/
def valueName (value : List UInt8) : List UInt8 := value.takeWhile (· ≠ comma)

/-- Whether the value of a tag has the option for leaving out empty values. -/
def hasOmitEmpty (value : List UInt8) : Bool :=
  (((value.dropWhile (· ≠ comma)).drop 1).splitOn comma).contains (utf8 "omitempty".toList)

/-- What a field is in JSON, given its own name and the value of its tag.  Which characters a name may
have is left open. -/
def jsonField (name value : List UInt8) : JsonField :=
  if value = utf8 ['-'] then .skipped
  else .named (if valueName value = [] then name else valueName value) (hasOmitEmpty value)

/-- What the field is in JSON that a text begins with. -/
def readField (cs : List Char) : JsonField :=
  let field := cs.dropWhile isSpace
  jsonField (utf8 (field.takeWhile (!isSpace ·))) (jsonValue (tagOf field))

/-! ## What is lost -/

theorem length_le_length_utf8 (cs : List Char) : cs.length ≤ (utf8 cs).length := by
  induction cs with
  | nil => exact Nat.le_refl 0
  | cons c cs ih =>
    have hc := c.utf8Size_pos
    rw [length_utf8_cons, List.length_cons]
    omega

theorem length_rune {n : Nat} {bytes : List UInt8} (h : rune? n = some bytes) :
    bytes.length ≤ 4 := by
  obtain ⟨-, hbytes⟩ := Option.ite_none_right_eq_some.1 h
  obtain rfl := Option.some.inj hbytes
  rw [String.length_utf8EncodeChar]
  exact Char.utf8Size_le_four _

/-- An escape stands for fewer bytes than it has. -/
theorem length_escape (escape : List Char) (bytes : List UInt8) {rest : List Char}
    {value : Option (List UInt8)} (hescape : bytes.length < escape.length)
    (hrest : ∀ w, value = some w → w.length ≤ (utf8 rest).length)
    (h : (value.bind fun w => some (bytes ++ w)) = some v) :
    v.length < (utf8 (escape ++ rest)).length := by
  obtain ⟨w, hw, hv⟩ := Option.bind_eq_some_iff.1 h
  obtain rfl := Option.some.inj hv
  have hlength := hrest w hw
  have hsize := length_le_length_utf8 escape
  rw [utf8_append, List.length_append, List.length_append]
  omega

/-- What is read between quotes is no longer than what stands there, and shorter if there is an
escape. -/
theorem length_of_unquote? (h : unquote? cs = some v) :
    v.length ≤ (utf8 cs).length ∧ ('\\' ∈ cs → v.length < (utf8 cs).length) := by
  have hshort {cs : List Char} {v : List UInt8} (h : v.length < (utf8 cs).length) :
      v.length ≤ (utf8 cs).length ∧ ('\\' ∈ cs → v.length < (utf8 cs).length) :=
    ⟨h.le, fun _ => h⟩
  fun_induction unquote? cs generalizing v with
  | case1 a b rest ih =>
    obtain ⟨n, -, h⟩ := Option.bind_eq_some_iff.1 h
    exact hshort (length_escape ['\\', 'x', a, b] [_] (by simp) (fun w hw => (ih hw).1) h)
  | case2 a b c d rest ih =>
    obtain ⟨n, -, h⟩ := Option.bind_eq_some_iff.1 h
    obtain ⟨bytes, hbytes, h⟩ := Option.bind_eq_some_iff.1 h
    have hlength : bytes.length < 6 := (length_rune hbytes).trans_lt (by decide)
    exact hshort
      (length_escape ['\\', 'u', a, b, c, d] bytes hlength (fun w hw => (ih hw).1) h)
  | case3 a b c d e f g i rest ih =>
    obtain ⟨n, -, h⟩ := Option.bind_eq_some_iff.1 h
    obtain ⟨bytes, hbytes, h⟩ := Option.bind_eq_some_iff.1 h
    have hlength : bytes.length < 10 := (length_rune hbytes).trans_lt (by decide)
    exact hshort (length_escape ['\\', 'U', a, b, c, d, e, f, g, i] bytes hlength
      (fun w hw => (ih hw).1) h)
  | case4 a rest _ _ _ n hn ih =>
    exact hshort (length_escape ['\\', a] [n] (by simp) (fun w hw => (ih hw).1) h)
  | case5 a hn b c rest _ _ _ ih =>
    obtain ⟨n, -, h⟩ := Option.bind_eq_some_iff.1 h
    exact hshort (length_escape ['\\', a, b, c] [n] (by simp) (fun w hw => (ih hw).1) h)
  | case6 => cases h
  | case7 => cases h
  | case8 c rest _ _ _ _ hc ih =>
    obtain ⟨w, hw, hv⟩ := Option.bind_eq_some_iff.1 h
    obtain rfl := Option.some.inj hv
    simp only [Bool.or_eq_true, decide_eq_true_eq, not_or] at hc
    obtain ⟨hle, hlt⟩ := ih hw
    rw [utf8_cons, List.length_append, List.length_append, List.mem_cons]
    refine ⟨by omega, fun hmem => ?_⟩
    have := hlt (hmem.resolve_left (Ne.symm hc.1))
    omega
  | case9 =>
    obtain rfl := Option.some.inj h
    exact ⟨Nat.le_refl 0, fun hmem => absurd hmem List.not_mem_nil⟩

/-- Without escapes everything between quotes stands for itself, but no line break may stand there. -/
theorem unquote?_of_notMem (h : '\\' ∉ cs) :
    unquote? cs = if '\n' ∈ cs then none else some (utf8 cs) := by
  induction cs with
  | nil => rfl
  | cons c cs ih =>
    rw [List.mem_cons, not_or] at h
    have hc : c ≠ '\\' := Ne.symm h.1
    rw [unquote?, ih h.2]
    · by_cases hbreak : c = '\n'
      · simp [hbreak]
      · by_cases hcs : '\n' ∈ cs
        · simp [hcs]
        · simp [hc, hbreak, Ne.symm hbreak, hcs, utf8_cons]
    all_goals simp [hc]

theorem rawValue_sublist (cs : List Char) : (rawValue cs).Sublist cs :=
  List.filter_sublist.trans (List.takeWhile_sublist _)

theorem ne_of_mem_rawValue {c : Char} (h : c ∈ rawValue cs) : c ≠ '\x60' ∧ c ≠ '\r' := by
  obtain ⟨htake, hc⟩ := List.mem_filter.1 h
  exact ⟨by simpa using List.mem_takeWhile_imp htake, by simpa using hc⟩

theorem rawValue_eq_self (h : ∀ c ∈ cs, c ≠ '\x60' ∧ c ≠ '\r') : rawValue cs = cs := by
  rw [rawValue, List.takeWhile_eq_self_iff.2 fun c hc => by simpa using (h c hc).1,
    List.filter_eq_self.2 fun c hc => by simpa using (h c hc).2]

/-- The value in a tag that is written with the given text between the quotes. -/
def tagValue? (cs : List Char) : Option (List UInt8) :=
  (splitQuote (rawValue (cs ++ ['"']))).bind fun r => unquote? r.1

/-- The characters with a meaning in raw strings or between quotes. -/
def tagSpecials : List Char := ['"', '\\', '\x60', '\n', '\r']

theorem tagValue?_eq_utf8 (h : ∀ c ∈ cs, c ∉ tagSpecials) : tagValue? cs = some (utf8 cs) := by
  simp only [tagSpecials, List.mem_cons, List.not_mem_nil, or_false, not_or] at h
  have hraw : rawValue (cs ++ ['"']) = cs ++ ['"'] := by
    refine rawValue_eq_self fun c hc => ?_
    rcases List.mem_append.1 hc with hc | hc
    · exact ⟨(h c hc).2.2.1, (h c hc).2.2.2.2⟩
    · rw [List.mem_singleton.1 hc]
      decide
  have hescaped : quotesEscaped cs = true := by
    simpa [quotesEscaped] using
      quotesEscaped_append (fun c hc => ⟨(h c hc).1, (h c hc).2.1⟩) []
  rw [tagValue?, hraw, splitQuote_append hescaped, Option.bind_some,
    unquote?_of_notMem fun hmem => (h _ hmem).2.1 rfl, if_neg fun hmem => (h _ hmem).2.2.2.1 rfl]

/-- The value in a tag is no longer than what is written there, and shorter if anything in it has a
meaning. -/
theorem length_of_tagValue? (h : tagValue? cs = some v) :
    v.length ≤ (utf8 cs).length ∧
      ((utf8 cs).length ≤ v.length → v = utf8 cs ∧ ∀ c ∈ cs, c ∉ tagSpecials) := by
  obtain ⟨⟨body, rest⟩, hsplit, hv⟩ := Option.bind_eq_some_iff.1 h
  obtain ⟨hraw, hquote⟩ := eq_of_splitQuote hsplit
  obtain ⟨hle, hlt⟩ : v.length ≤ (utf8 body).length ∧ ('\\' ∈ body → v.length < (utf8 body).length) :=
    length_of_unquote? hv
  have hsub := rawValue_sublist (cs ++ ['"'])
  have hbytes := (hsub.flatMap String.utf8EncodeChar).length_le
  have hwritten : (utf8 (cs ++ ['"'])).length = (utf8 cs).length + 1 := by
    rw [utf8_append, List.length_append]
    rfl
  have hread : (utf8 (body ++ '"' :: rest)).length =
      (utf8 body).length + 1 + (utf8 rest).length := by
    have hone : '"'.utf8Size = 1 := rfl
    rw [utf8_append, List.length_append, length_utf8_cons, hone, Nat.add_assoc]
  change (utf8 _).length ≤ (utf8 _).length at hbytes
  rw [hwritten, hraw, hread] at hbytes
  refine ⟨by omega, fun hfull => ?_⟩
  have hkept : rawValue (cs ++ ['"']) = cs ++ ['"'] :=
    eq_of_sublist hsub (by rw [hwritten, hraw, hread]; omega)
  obtain rfl : rest = [] := by
    have hrest := length_le_length_utf8 rest
    exact List.eq_nil_of_length_eq_zero (by omega)
  obtain rfl : cs = body := List.append_cancel_right (hkept.symm.trans hraw)
  have hbackslash : '\\' ∉ cs := fun hmem => absurd (hlt hmem) (by omega)
  rw [unquote?_of_notMem hbackslash] at hv
  obtain ⟨hbreak, hv⟩ := Option.ite_none_left_eq_some.1 hv
  refine ⟨(Option.some.inj hv).symm, fun c hc => ?_⟩
  have hne := ne_of_mem_rawValue (hkept.symm ▸ List.mem_append_left _ hc)
  simp only [tagSpecials, List.mem_cons, List.not_mem_nil, or_false, not_or]
  refine ⟨?_, ?_, hne.1, ?_, hne.2⟩
  · rintro rfl
    exact hquote hbackslash hc
  · rintro rfl
    exact hbackslash hc
  · rintro rfl
    exact hbreak hc

/-! ## Keys -/

/-- What is written behind the key of a field that may be absent. -/
def optionText (absent : Bool) : List Char := if absent then ",omitempty".toList else []

/-- A key that can be written into a tag as it is. -/
structure Fits (key : String) (absent : Bool) : Prop where
  ne_empty : key ≠ ""
  comma : ',' ∉ key.toList
  specials : ∀ c ∈ key.toList, c ∉ tagSpecials
  /-- The value `-` is no name, but with an option it is. -/
  dash : key = "-" → absent = true

theorem fits_of_isPlainIdentifier (h : isPlainIdentifier key.toList = true) (absent : Bool) :
    Fits key absent where
  ne_empty := by
    rintro rfl
    cases h
  comma := Text.notMem_of_isPlainIdentifier h (by decide)
  specials c hc hspecial := by
    have hspecials : tagSpecials.all (!Text.isIdentifierTail ·) = true := by decide
    have htail : Text.isIdentifierTail c = false := by
      simpa using List.all_eq_true.1 hspecials c hspecial
    exact Text.notMem_of_isPlainIdentifier h htail hc
  dash := by
    rintro rfl
    cases h

/-- The name and the option are parts of the value. -/
theorem length_valueName (v : List UInt8) :
    (valueName v).length + (utf8 (optionText (hasOmitEmpty v))).length ≤ v.length := by
  have hsplit := congrArg List.length (List.takeWhile_append_dropWhile (p := (· ≠ comma)) (l := v))
  rw [List.length_append] at hsplit
  rw [valueName]
  cases hoption : hasOmitEmpty v with
  | false =>
    have hnone : (utf8 (optionText false)).length = 0 := rfl
    omega
  | true =>
    have hten : (utf8 (optionText true)).length = 10 := by decide
    have hmem := List.contains_iff_mem.1 hoption
    have hpart := (Text.infix_intercalate [comma] hmem).length_le
    have hnine : (utf8 "omitempty".toList).length = 9 := by decide
    rw [List.intercalate_splitOn, hnine, List.length_drop] at hpart
    omega

/-- A value without commas in its name. -/
theorem valueName_append {name : List UInt8} (h : comma ∉ name) (absent : Bool) :
    valueName (name ++ utf8 (optionText absent)) = name ∧
      hasOmitEmpty (name ++ utf8 (optionText absent)) = absent := by
  have hname : ∀ b ∈ name, decide (b ≠ comma) = true := by
    intro b hb
    simp only [ne_eq, decide_eq_true_eq]
    rintro rfl
    exact h hb
  rw [valueName, hasOmitEmpty, List.takeWhile_append_of_pos hname,
    List.dropWhile_append_of_pos hname]
  cases absent with
  | false => exact ⟨List.append_nil name, by decide⟩
  | true =>
    have hstop : (utf8 (optionText true)).takeWhile (· ≠ comma) = [] := by decide
    exact ⟨by rw [hstop, List.append_nil], by decide⟩

theorem specials_optionText (absent : Bool) : ∀ c ∈ optionText absent, c ∉ tagSpecials := by
  cases absent <;> simp [optionText, tagSpecials]

/-- A key that is read back can be written as it is. -/
theorem fits_of_jsonField {id : String} (hid : isPlainIdentifier id.toList = true)
    (h : jsonField (utf8 id.toList) ((tagValue? (key.toList ++ optionText absent)).getD []) =
      .named (utf8 key.toList) absent) : Fits key absent := by
  rw [jsonField] at h
  split at h
  · cases h
  · next hdash =>
    obtain ⟨hname, hoption⟩ := JsonField.named.inj h
    split at hname
    · rw [String.toList_inj.1 (utf8_injective hname)] at hid
      exact fits_of_isPlainIdentifier hid absent
    · next hne =>
      cases hv : tagValue? (key.toList ++ optionText absent) with
      | none =>
        rw [hv] at hne
        exact absurd rfl hne
      | some v =>
        -- the name and the option are as long as what is written, so nothing is lost
        rw [hv, Option.getD_some] at hdash hname hoption hne
        have hlength := length_valueName v
        rw [hname, hoption, ← List.length_append, ← utf8_append] at hlength
        obtain ⟨rfl, hspecials⟩ := (length_of_tagValue? hv).2 hlength
        refine ⟨?_, fun hcomma => ?_, fun c hc => hspecials c (List.mem_append_left _ hc), ?_⟩
        · rintro rfl
          exact hne hname
        · have hmem := comma_mem_utf8.2 hcomma
          rw [← hname] at hmem
          exact absurd (List.mem_takeWhile_imp hmem) (by decide)
        · rintro rfl
          cases absent with
          | false => exact absurd rfl hdash
          | true => rfl

theorem Fits.ne_dash (h : Fits key absent) :
    utf8 (key.toList ++ optionText absent) ≠ utf8 ['-'] := by
  intro heq
  have hchars := utf8_injective heq
  cases absent with
  | false =>
    have hkey : key = "-" := String.toList_inj.1 ((List.append_nil _).symm.trans hchars)
    cases h.dash hkey
  | true =>
    have hlength := congrArg List.length hchars
    simp [optionText] at hlength

theorem Fits.jsonField (h : Fits key absent) (id : List UInt8) :
    jsonField id ((tagValue? (key.toList ++ optionText absent)).getD []) =
      .named (utf8 key.toList) absent := by
  have hspecials : ∀ c ∈ key.toList ++ optionText absent, c ∉ tagSpecials := by
    intro c hc
    rcases List.mem_append.1 hc with hc | hc
    · exact h.specials c hc
    · exact specials_optionText absent c hc
  have hname := valueName_append (mt comma_mem_utf8.1 h.comma) absent
  have hne : utf8 key.toList ≠ [] := fun heq => h.ne_empty (String.toList_inj.1 (utf8_injective heq))
  rw [tagValue?_eq_utf8 hspecials, Option.getD_some, Go.jsonField, if_neg h.ne_dash, utf8_append,
    hname.1, hname.2, if_neg hne]

/-! ## Lines of fields -/

theorem rawValue_append_backquote (cs rest : List Char) :
    rawValue (cs ++ '\x60' :: rest) = rawValue cs := by
  have htake : (cs ++ '\x60' :: rest).takeWhile (· ≠ '\x60') = cs.takeWhile (· ≠ '\x60') := by
    induction cs with
    | nil => simp
    | cons c cs ih => rw [List.cons_append, List.takeWhile_cons, List.takeWhile_cons, ih]
  rw [rawValue, htake, rawValue]

theorem jsonValue_rawValue (cs rest : List Char) :
    jsonValue (rawValue ("json:\"".toList ++ (cs ++ '"' :: '\x60' :: rest))) =
      (tagValue? cs).getD [] := by
  have hchars : "json:\"".toList ++ (cs ++ '"' :: '\x60' :: rest) =
      ("json:\"".toList ++ (cs ++ ['"'])) ++ '\x60' :: rest := by
    simp
  have hkey : rawValue ("json:\"".toList ++ (cs ++ ['"'])) =
      "json:\"".toList ++ rawValue (cs ++ ['"']) := by
    rw [rawValue, List.takeWhile_append_of_pos (by simp), List.filter_append]
    rfl
  rw [hchars, rawValue_append_backquote, hkey]
  rfl

theorem tagOf_append (h : '\x60' ∉ cs) (rest : List Char) :
    tagOf (cs ++ '\x60' :: rest) = rawValue rest := by
  have hcs : ∀ c ∈ cs, decide (c ≠ '\x60') = true := by
    intro c hc
    simp only [ne_eq, decide_eq_true_eq]
    rintro rfl
    exact h hc
  rw [tagOf, List.dropWhile_append_of_pos hcs, List.dropWhile_cons_of_neg (by decide)]
  rfl

/-- A line with a name, a type and a tag. -/
theorem readField_line {id type : String} (hid : isPlainIdentifier id.toList = true)
    (htype : '\x60' ∉ type.toList) (cs rest : List Char) :
    readField ('\t' :: (id.toList ++ ' ' :: (type.toList ++ ' ' :: '\x60' ::
        ("json:\"".toList ++ (cs ++ '"' :: '\x60' :: rest))))) =
      jsonField (utf8 id.toList) ((tagValue? cs).getD []) := by
  have hspace : ∀ c ∈ id.toList, isSpace c = false := fun c hc =>
    isSpace_eq_false_of_isIdentifierTail
      (Text.isIdentifierTail_iff.2 (Text.plain_of_isPlainIdentifier hid c hc))
  have hblank (more : List Char) : ('\t' :: (id.toList ++ more)).dropWhile isSpace =
      id.toList ++ more := by
    cases hchars : id.toList with
    | nil =>
      rw [hchars] at hid
      cases hid
    | cons c name =>
      rw [hchars, List.forall_mem_cons] at hspace
      rw [List.dropWhile_cons_of_pos (by decide), List.cons_append,
        List.dropWhile_cons_of_neg (by simp [hspace.1])]
  have hname (more : List Char) : (id.toList ++ ' ' :: more).takeWhile (!isSpace ·) = id.toList := by
    rw [List.takeWhile_append_of_pos fun c hc => by simp [hspace c hc],
      List.takeWhile_cons_of_neg (by decide), List.append_nil]
  have hfront : '\x60' ∉ id.toList ++ ' ' :: (type.toList ++ [' ']) := by
    simpa using ⟨Text.notMem_of_isPlainIdentifier hid (by decide), htype⟩
  have hchars (more : List Char) : id.toList ++ ' ' :: (type.toList ++ ' ' :: '\x60' :: more) =
      (id.toList ++ ' ' :: (type.toList ++ [' '])) ++ '\x60' :: more := by
    simp
  simp only [readField]
  rw [hblank, hname, hchars, tagOf_append hfront, jsonValue_rawValue]

variable {names : Naming.Table}

/-- The text of a type holds no backquote. -/
theorem backquote_notMem_renderType (hplain : names.Plain) {t : TypeExpr}
    (h : t.Formed .go (· ∈ names.typeNames)) {text : String} (htext : renderType t = .ok text) :
    '\x60' ∉ text.toList := by
  induction h generalizing text with
  | any =>
    obtain rfl := Except.ok.inj htext
    decide
  | primitive p notes =>
    obtain rfl := Except.ok.inj htext
    cases p <;> decide
  | @named id hid =>
    obtain rfl := Except.ok.inj htext
    exact Text.notMem_of_isPlainIdentifier (hplain.types id hid) (by decide)
  | literal value =>
    obtain rfl := Except.ok.inj htext
    exact show '\x60' ∉ "string".toList by decide
  | array _ ih | map _ ih =>
    obtain ⟨item, hitem, htext⟩ := bind_eq_ok.1 htext
    obtain rfl := pure_eq_ok.1 htext
    simpa [style] using ih hitem
  | optional _ absent null ih =>
    obtain ⟨item, hitem, htext⟩ := bind_eq_ok.1 htext
    obtain rfl := pure_eq_ok.1 htext
    simp only [style]
    split
    · exact ih hitem
    · simpa using ih hitem

theorem backquote_notMem_fieldType (hplain : names.Plain) {f : Field} (h : f.Shaped .go names)
    {text : String} (htext : fieldType f = .ok text) : '\x60' ∉ text.toList := by
  unfold fieldType at htext
  split at htext
  · next href =>
    obtain rfl := Except.ok.inj htext
    simp only [Bool.and_eq_true, decide_eq_true_eq] at href
    have hname := hplain.types _ (h.type.of_kind_named href.1).1
    simpa using Text.notMem_of_isPlainIdentifier hname (c := '\x60') (by decide)
  · exact backquote_notMem_renderType hplain h.type htext

/-- The lines of a field are a comment if the field has a description, and a line that is read as the
key of the field exactly if the key can be written as it is. -/
def Carries (f : Field) (block : List String) : Prop :=
  ∃ line, block = (lineComments "//" f.description).map ("\t" ++ ·) ++ [line] ∧
    ∀ rest, readField (line.toList ++ rest) = .named (utf8 f.wire.toList) f.mayBeAbsent ↔
      Fits f.wire f.mayBeAbsent

theorem exists_carries (hplain : names.Plain) {f : Field} (h : f.Shaped .go names) :
    ∃ block, fieldLines f = .ok block ∧ Carries f block := by
  obtain ⟨type, htype, -⟩ := exists_fieldType hplain h
  refine ⟨_, bind_eq_ok.2 ⟨type, htype, rfl⟩, _, rfl, fun rest => ?_⟩
  have hid := hplain.fields _ h.name.mem_fieldNames
  have hchars : ("\t" ++ f.name ++ " " ++ type ++ " `json:\"" ++
      (f.wire ++ if f.mayBeAbsent then ",omitempty" else "") ++ "\"`").toList ++ rest =
        '\t' :: (f.name.toList ++ ' ' :: (type.toList ++ ' ' :: '\x60' :: ("json:\"".toList ++
          ((f.wire.toList ++ optionText f.mayBeAbsent) ++ '"' :: '\x60' :: rest)))) := by
    cases f.mayBeAbsent <;> simp [optionText]
  rw [hchars, readField_line hid (backquote_notMem_fieldType hplain h htype)]
  exact ⟨fits_of_jsonField hid, fun hfits => hfits.jsonField _⟩

theorem ownFields_eq_dataFields (hplain : names.Plain) {header : Header} {fields : List Field}
    {base : Option String} {additional : Bool}
    (h : Declaration.Shaped .go names (.struct header fields base additional)) :
    ownFields fields base = dataFields fields := by
  cases h with
  | struct _ hfields => exact (dataFields_of_shaped hfields).symm
  | branch _ hunion =>
    rw [ownFields, nonEmpty_of_isPlainIdentifier (hplain.types _ hunion)]
    rfl

/-- Keys in tags.  The mapping succeeds, and a struct is written as its comment, the line that opens
it, the lines of its fields in order and the line that closes it.  The last line of a field is read
as a name and an option.  If the key can be written as it is, the name is the key and the option is
there just when the field may be absent, and otherwise one of the two is not so. -/
theorem tags_carry_keys {document : Json} {schema : Schema} (hdistinct : document.Distinct)
    (hresolve : resolve document = .ok schema) (rules : Naming.Rules) (rootName : Json)
    (names : Naming.Table) (graph : ReferenceGraph) (setting : Setting)
    (hassign : Naming.assign rules schema rootName = .ok names)
    (hrules : rules = Go.rules ∨ names.Plain) :
    ∃ m, mapSchema { go.backend with rules := rules } names schema graph = .ok m ∧
      ∀ (h : Header) (fields : List Field) (base : Option String) (additional : Bool),
        .struct h fields base additional ∈ m.declarations → ∃ blocks,
          go.renderDeclaration setting (.struct h fields base additional) =
            .ok (layout (lineComments "//" h.description ++
              (["type " ++ h.name ++ " struct \x7b"] ++ blocks.flatten ++ ["\x7d"]))) ∧
          List.Forall₂ Carries (dataFields fields) blocks := by
  have hplain : names.Plain := by
    rcases hrules with rfl | hplain
    · exact Naming.Table.plain_of_assign (Naming.spellsLegally_rules .go) (by decide) (by decide)
        (by decide) hassign
    · exact hplain
  obtain ⟨m, hm, hshaped⟩ := Mapping.exists_shaped hdistinct hresolve hassign .go graph
  refine ⟨m, hm, fun h fields base additional hmem => ?_⟩
  have hstruct := hshaped _ hmem
  obtain ⟨blocks, hblocks, hcarries⟩ := exists_mapM fun f hf =>
    exists_carries hplain ((shaped_ownFields hplain hstruct).1 f hf)
  rw [ownFields_eq_dataFields hplain hstruct] at hcarries
  exact ⟨blocks, bind_eq_ok.2 ⟨_, bind_eq_ok.2 ⟨_, bind_eq_ok.2 ⟨blocks, hblocks, rfl⟩, rfl⟩, rfl⟩,
    hcarries⟩

/-- A document with a key that means that a field is skipped, and one that may be absent. -/
def dashedDocument : Json := .object [
  ("properties", .object [("-", .object [("type", .string "string")])]),
  ("optionalProperties", .object [("note", .object [("type", .string "string")])])]

/-- The nodes of the document. -/
def dashedSchema : Schema where
  definitions := []
  root := .properties ⟨⟨[]⟩, false, none, []⟩
    [("-", .type ⟨⟨["properties", "-"]⟩, false, none, []⟩ .string)]
    [("note", .type ⟨⟨["optionalProperties", "note"]⟩, false, none, []⟩ .string)] false

/-- The names of the schema. -/
def dashedNames : Naming.Table where
  root := "Root"
  definitions := []
  nodes := [(⟨[]⟩, .struct "Root" [⟨"Field", "-"⟩, ⟨"Note", "note"⟩])]

/-- The fields of the only struct. -/
def dashedFields : List Field :=
  [{ name := "Field", wire := "-", type := .primitive "string" },
    { name := "Note", wire := "note", required := false,
      type := { kind := .optional, args := [.primitive "string"], mayBeAbsent := true } }]

theorem tags_carry_keys_dashed :
    dashedDocument.Distinct ∧ resolve dashedDocument = .ok dashedSchema ∧
      Naming.assign Go.rules dashedSchema (.string "root") = .ok dashedNames ∧
      ∃ m dash note, mapSchema go.backend dashedNames dashedSchema (.ofSchema dashedSchema) = .ok m ∧
        m.declarations.mapM (go.renderDeclaration { rootName := .null }) =
          .ok [layout ["type Root struct \x7b", dash, note, "\x7d"]] ∧
        readField (dash.toList ++ ['\n']) ≠ .named (utf8 "-".toList) false ∧
        readField (note.toList ++ ['\n']) = .named (utf8 "note".toList) true := by
  have hdistinct : dashedDocument.Distinct := by simp [dashedDocument, Json.keys]
  have hresolve : resolve dashedDocument = .ok dashedSchema := by with_unfolding_all rfl
  have hassign : Naming.assign Go.rules dashedSchema (.string "root") = .ok dashedNames := by
    with_unfolding_all rfl
  have hmapped : mapSchema go.backend dashedNames dashedSchema (.ofSchema dashedSchema) =
      .ok ⟨"go", .named "Root", [.struct { name := "Root", path := "#" } dashedFields none false],
        []⟩ := by
    with_unfolding_all rfl
  obtain ⟨m, hm, hcarries⟩ := tags_carry_keys hdistinct hresolve Go.rules (.string "root") dashedNames
    (.ofSchema dashedSchema) { rootName := .null } hassign (.inl rfl)
  obtain rfl := Except.ok.inj (hm.symm.trans hmapped)
  obtain ⟨blocks, htext, hblocks⟩ := hcarries _ _ _ _ (List.mem_singleton_self _)
  have hfields : dataFields dashedFields = dashedFields := rfl
  rw [hfields] at hblocks
  cases hblocks with
  | cons hfirst hrest =>
    cases hrest with
    | cons hsecond hrest =>
      cases hrest
      obtain ⟨dash, rfl, hdash⟩ := hfirst
      obtain ⟨note, rfl, hnote⟩ := hsecond
      refine ⟨hdistinct, hresolve, hassign, _, dash, note, hmapped, ?_, ?_, ?_⟩
      · exact bind_eq_ok.2 ⟨_, htext, rfl⟩
      · intro hread
        cases ((hdash _).1 hread).dash rfl
      · exact (hnote _).2 ⟨by decide, by decide, by simp [tagSpecials], fun _ => rfl⟩

/-- The key `-` is read as no field at all, and a key with a quote is cut off there. -/
theorem tags_lose_keys :
    fieldLines { name := "Field", wire := "-", type := .primitive "string" } =
        .ok ["\tField string `json:\"-\"`"] ∧
      readField "\tField string `json:\"-\"`".toList = .skipped ∧
      fieldLines { name := "AB", wire := "a\"b", type := .primitive "string" } =
        .ok ["\tAB string `json:\"a\"b\"`"] ∧
      readField "\tAB string `json:\"a\"b\"`".toList = .named (utf8 "a".toList) false := by
  exact ⟨rfl, by decide, rfl, by decide⟩

end Typegen.Target.Go
