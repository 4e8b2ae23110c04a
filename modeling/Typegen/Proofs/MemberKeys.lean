import Typegen.Proofs.TypeScriptCode
import Typegen.Proofs.TypeSyntax

/-!
# Keys of interface members

`memberHead?` reads the beginning of a member of an interface: a name, which is an identifier or a
string literal, the mark of a member that may be missing, and the colon in front of the type.  The key
of a member is read as the name of its field (`memberKeys_denote`), with one exception: a name that is
an identifier and a line break is written as it is, and then the line break is a blank behind the
identifier.
-/

namespace Typegen.Target

open Text (quote isIdentifier isPlainIdentifier isIdentifierTail dropFinalNewline)

/-! ## Reading a literal -/

/-- A literal with its quotes, from what stands between them. -/
def requoted (raw : String) : String := "\"" ++ raw ++ "\""

theorem requoted_quotedBody (s : String) : requoted (quotedBody s) = quote s := by
  apply String.toList_inj.1
  simp [requoted, quotedBody, quote, Text.quotedChars]

namespace TypeScript

/-- The value of a literal. -/
def literal? (text : String) : Option (List Nat) := literalRules.literal? (codePoints text)

theorem readQuoted_literalRules : literalRules.ReadQuoted := by
  refine ⟨fun n hn => utf16Units_of_lt (by omega), by decide⟩

theorem literal?_quoted (s : String) : literal? (quote s) = some (utf16 s) :=
  literal?_quote readQuoted_literalRules fun _ _ _ _ => rfl

/-! ## Reading a member -/

/-- The name that a text begins with, in UTF-16, and what stands behind it. -/
def propertyName? : List Char → Option (List Nat × List Char)
  | '"' :: rest => do
    let r ← splitQuote rest
    return (← literal? (requoted (String.ofList r.1)), r.2)
  | c :: rest =>
    if isNameHead c then
      some (utf16 (String.ofList (c :: rest.takeWhile isNamePart)), rest.dropWhile isNamePart)
    else none
  | [] => none

/-- What stands behind a colon. -/
def colon? : List Char → Option (List Char)
  | ':' :: rest => some rest
  | _ => none

/-- The beginning of a member. -/
structure MemberHead where
  /-- The name, in UTF-16. -/
  name : List Nat
  /-- Whether the member may be missing. -/
  optional : Bool
  /-- What stands behind the colon. -/
  rest : List Char

/-- The beginning of a member, from behind its name on. -/
def afterName? (name : List Nat) : List Char → Option MemberHead
  | '?' :: rest => (colon? (rest.dropWhile isSpace)).map (⟨name, true, ·⟩)
  | rest => (colon? rest).map (⟨name, false, ·⟩)

/-- The beginning of a member that a text begins with. -/
def memberHead? (cs : List Char) : Option MemberHead := do
  let r ← propertyName? (cs.dropWhile isSpace)
  afterName? r.1 (r.2.dropWhile isSpace)

/-! ## Keys -/

/-- The name that the key of a member is read as. -/
def readName (name : String) : String :=
  if isIdentifier name then String.ofList (dropFinalNewline name.toList) else name

/-- A name that is an identifier and a line break. -/
def BreaksOff (name : String) : Prop :=
  ∃ id : String, isPlainIdentifier id.toList = true ∧ name = id ++ "\n"

theorem isNamePart_of_isIdentifierTail {c : Char} (h : isIdentifierTail c = true) :
    isNamePart c = true := by
  simp [isNamePart, h]

/-- An identifier is a name, which ends where no character of a name follows. -/
theorem propertyName?_identifier {id : String} (h : isPlainIdentifier id.toList = true)
    {rest : List Char} (hrest : Separate rest) :
    propertyName? (id.toList ++ rest) = some (utf16 id, rest) := by
  have hstop : rest.takeWhile isNamePart = [] ∧ rest.dropWhile isNamePart = rest := by
    cases rest with
    | nil => exact ⟨rfl, rfl⟩
    | cons c rest => simp [hrest c rfl]
  cases hchars : id.toList with
  | nil =>
    rw [hchars] at h
    cases h
  | cons c cs =>
    rw [hchars, isPlainIdentifier, Bool.and_eq_true, List.all_eq_true] at h
    have hquote : c ≠ '"' := by
      rintro rfl
      exact absurd h.1 (by decide)
    have hpart : isNamePart c = true :=
      isNamePart_of_isIdentifierTail (by simp [isIdentifierTail, h.1])
    have hname : ∀ d ∈ cs, isNamePart d = true := fun d hd =>
      isNamePart_of_isIdentifierTail (h.2 d hd)
    rw [List.cons_append, propertyName?, if_pos]
    · rw [List.takeWhile_append_of_pos hname, List.dropWhile_append_of_pos hname, hstop.1, hstop.2,
        List.append_nil, ← hchars, String.ofList_toList]
    · rw [isNameHead, hpart, Text.isDigit_eq_false_of_isIdentifierHead h.1]
      rfl
    · exact hquote

/-- A quoted string is a name. -/
theorem propertyName?_quote (name : String) (rest : List Char) :
    propertyName? ((quote name).toList ++ rest) = some (utf16 name, rest) := by
  have hchars : (quote name).toList ++ rest =
      '"' :: (name.toList.flatMap Text.quotedChar ++ '"' :: rest) := by
    simp [quote, Text.quotedChars]
  have hvalue : literal? (requoted (String.ofList (name.toList.flatMap Text.quotedChar))) =
      some (utf16 name) := by
    rw [← quotedBody, requoted_quotedBody, literal?_quoted]
  rw [hchars, propertyName?, splitQuote_append (quotesEscaped_quoted name.toList)]
  simp [hvalue]

theorem readName_of_breaksOff {id : String} (h : isPlainIdentifier id.toList = true) :
    isIdentifier (id ++ "\n") = true ∧ readName (id ++ "\n") = id := by
  have hdrop : dropFinalNewline (id ++ "\n").toList = id.toList := by
    simp [dropFinalNewline]
  have hidentifier : isIdentifier (id ++ "\n") = true := by
    rwa [isIdentifier, hdrop]
  exact ⟨hidentifier, by rw [readName, if_pos hidentifier, hdrop, String.ofList_toList]⟩

/-- The three kinds of names: those that are quoted, identifiers, and identifiers with a line break. -/
theorem name_cases (name : String) :
    isIdentifier name = false ∨ isPlainIdentifier name.toList = true ∨ BreaksOff name := by
  cases hname : isIdentifier name with
  | false => exact .inl rfl
  | true =>
    refine .inr ?_
    rw [isIdentifier, dropFinalNewline] at hname
    split at hname
    · next hlast =>
      refine .inr ⟨String.ofList name.toList.dropLast, by rwa [String.toList_ofList], ?_⟩
      apply String.toList_inj.1
      simp [List.dropLast_append_getLast?, hlast]
    · exact .inl hname

theorem readName_of_isPlainIdentifier {name : String} (h : isPlainIdentifier name.toList = true) :
    isIdentifier name = true ∧ readName name = name := by
  have hdrop : dropFinalNewline name.toList = name.toList := by
    refine if_neg fun hlast => ?_
    exact Text.notMem_of_isPlainIdentifier h (by decide) (List.mem_of_getLast? hlast)
  have hidentifier : isIdentifier name = true := by
    rwa [isIdentifier, hdrop]
  exact ⟨hidentifier, by rw [readName, if_pos hidentifier, hdrop, String.ofList_toList]⟩

/-- The key of a member is read as the name of the field unless a line break is lost. -/
theorem utf16_readName_eq_iff (name : String) :
    utf16 (readName name) = utf16 name ↔ ¬BreaksOff name := by
  constructor
  · rintro heq ⟨id, hid, rfl⟩
    rw [(readName_of_breaksOff hid).2] at heq
    have hchars := congrArg ofUtf16 heq
    rw [ofUtf16_utf16, ofUtf16_utf16, String.toList_append] at hchars
    have hlength := congrArg List.length hchars
    simp at hlength
  · intro hbreak
    rcases name_cases name with hquoted | hplain | hbreak'
    · rw [readName, if_neg (by simp [hquoted])]
    · rw [(readName_of_isPlainIdentifier hplain).2]
    · exact absurd hbreak' hbreak

theorem memberKey_head (name : String) :
    ∃ c cs, (memberKey name).toList = c :: cs ∧ isSpace c = false := by
  have hidentifier : ∀ cs, isPlainIdentifier cs = true → ∃ c cs', cs = c :: cs' ∧
      isSpace c = false := by
    intro cs h
    cases cs with
    | nil => cases h
    | cons c cs =>
      have htail := Text.isIdentifierTail_iff.2
        (Text.plain_of_isPlainIdentifier h c List.mem_cons_self)
      exact ⟨c, cs, rfl, isSpace_eq_false_of_isIdentifierTail htail⟩
  rcases name_cases name with hquoted | hplain | ⟨id, hid, rfl⟩
  · rw [memberKey, if_neg (by simp [hquoted])]
    exact ⟨'"', name.toList.flatMap Text.quotedChar ++ ['"'], by simp [quote, Text.quotedChars],
      by decide⟩
  · rw [memberKey, if_pos (readName_of_isPlainIdentifier hplain).1]
    exact hidentifier _ hplain
  · rw [memberKey, if_pos (readName_of_breaksOff hid).1, String.toList_append]
    obtain ⟨c, cs, hchars, hspace⟩ := hidentifier _ hid
    exact ⟨c, cs ++ ['\n'], by rw [hchars]; rfl, hspace⟩

/-- Behind the name that is read from a key, blanks may stand that belong to the key. -/
theorem propertyName?_memberKey (name : String) {rest : List Char} (hrest : Separate rest) :
    ∃ blanks, (∀ c ∈ blanks, isSpace c = true) ∧
      propertyName? ((memberKey name).toList ++ rest) =
        some (utf16 (readName name), blanks ++ rest) := by
  rcases name_cases name with hquoted | hplain | ⟨id, hid, rfl⟩
  · refine ⟨[], by simp, ?_⟩
    rw [memberKey, readName, if_neg (by simp [hquoted]), if_neg (by simp [hquoted]),
      propertyName?_quote]
    rfl
  · refine ⟨[], by simp, ?_⟩
    rw [memberKey, if_pos (readName_of_isPlainIdentifier hplain).1,
      (readName_of_isPlainIdentifier hplain).2, propertyName?_identifier hplain hrest]
    rfl
  · refine ⟨['\n'], by simp [isSpace], ?_⟩
    rw [memberKey, if_pos (readName_of_breaksOff hid).1, (readName_of_breaksOff hid).2,
      String.toList_append, List.append_assoc]
    exact propertyName?_identifier hid (separate_cons (by decide) rest)

/-- A key, the mark of a member that may be missing, and a colon. -/
theorem memberHead?_memberKey (name : String) (optional : Bool) (rest : List Char) :
    memberHead? ("  ".toList ++ ((memberKey name).toList ++
        ((if optional then ['?'] else []) ++ ':' :: rest))) =
      some ⟨utf16 (readName name), optional, rest⟩ := by
  obtain ⟨c, cs, hkey, hc⟩ := memberKey_head name
  have hfront : ∀ more, ("  ".toList ++ ((memberKey name).toList ++ more)).dropWhile isSpace =
      (memberKey name).toList ++ more := by
    intro more
    rw [List.dropWhile_append_of_pos (by simp [isSpace]), hkey, List.cons_append,
      List.dropWhile_cons, hc]
    rfl
  cases optional with
  | true =>
    obtain ⟨blanks, hblanks, hread⟩ :=
      propertyName?_memberKey name (separate_cons (c := '?') (by decide) (':' :: rest))
    rw [memberHead?, hfront]
    simp only [if_true, List.cons_append, List.nil_append, hread, Option.bind_eq_bind,
      Option.bind_some, List.dropWhile_append_of_pos hblanks]
    rfl
  | false =>
    obtain ⟨blanks, hblanks, hread⟩ :=
      propertyName?_memberKey name (separate_cons (c := ':') (by decide) rest)
    rw [memberHead?, hfront]
    simp only [Bool.false_eq_true, if_false, List.nil_append, hread, Option.bind_eq_bind,
      Option.bind_some, List.dropWhile_append_of_pos hblanks]
    rfl

/-- The lines of a field: a comment if the field has a description, and a member whose beginning is
read as what the key stands for. -/
theorem exists_member {f : Field} {block : List String} (h : memberLines f = .ok block) :
    ∃ line type, block = shortBlockComment "  " f.description ++ [line] ∧
      renderType f.type = .ok type ∧ ∀ rest, memberHead? (line.toList ++ rest) =
        some ⟨utf16 (readName f.name), f.mayBeAbsent, ' ' :: type.toList ++ ';' :: rest⟩ := by
  obtain ⟨type, htype, hblock⟩ := bind_eq_ok.1 h
  obtain rfl := pure_eq_ok.1 hblock
  refine ⟨_, type, rfl, htype, fun rest => ?_⟩
  have hchars : ("  " ++ memberKey f.name ++ (if f.mayBeAbsent then "?" else "") ++ ": " ++ type ++
      ";").toList ++ rest = "  ".toList ++ ((memberKey f.name).toList ++
        ((if f.mayBeAbsent then ['?'] else []) ++ ':' :: (' ' :: type.toList ++ ';' :: rest))) := by
    cases f.mayBeAbsent <;> simp
  rw [hchars, memberHead?_memberKey]

/-- The lines of a field end in a member, whose key is read as the name of the field unless a line
break is lost. -/
def KeyRead (f : Field) (block : List String) : Prop :=
  ∃ line name type, block = shortBlockComment "  " f.description ++ [line] ∧
    renderType f.type = .ok type ∧
    (∀ rest, memberHead? (line.toList ++ rest) =
      some ⟨name, f.mayBeAbsent, ' ' :: type.toList ++ ';' :: rest⟩) ∧
    (name = utf16 f.name ↔ ¬BreaksOff f.name) ∧
    ∀ id : String, isPlainIdentifier id.toList = true → f.name = id ++ "\n" → name = utf16 id

theorem exists_members {setting : Setting} {h : Header} {fields : List Field} {base : Option String}
    {additional : Bool} {text : String}
    (htext : typescript.renderDeclaration setting (.struct h fields base additional) = .ok text) :
    ∃ blocks, text = layout (blockComment h.description ++
        ["export interface " ++ h.name ++ " \x7b"] ++ blocks.flatten ++ ["\x7d"]) ∧
      List.Forall₂ KeyRead fields blocks := by
  obtain ⟨lines, hlines, rfl⟩ : ∃ lines,
      declarationLines (.struct h fields base additional) = .ok lines ∧ layout lines = text := by
    simpa only [renderDeclaration, bind_eq_ok, pure_eq_ok] using htext
  obtain ⟨blocks, hblocks, hpure⟩ := bind_eq_ok.1 hlines
  obtain rfl := pure_eq_ok.1 hpure
  refine ⟨blocks, rfl, (mapM_eq_ok.1 hblocks).imp fun f block hblock => ?_⟩
  obtain ⟨line, type, rfl, htype, hread⟩ := exists_member hblock
  refine ⟨line, utf16 (readName f.name), type, rfl, htype, hread, utf16_readName_eq_iff f.name,
    fun id hid hname => ?_⟩
  rw [hname, (readName_of_breaksOff hid).2]

/-- Keys of members.  An interface is written as its comment, the line that opens it, the lines of its
fields in order and the line that closes it, and the last line of every field is a member.  It is read
as a name, the mark of a member that may be missing, and a type.  The name is that of the field exactly
if the name of the field is no identifier with a line break; otherwise it is the identifier. -/
theorem memberKeys_denote (setting : Setting) (h : Header) (fields : List Field)
    (base : Option String) (additional : Bool) (text : String)
    (htext : typescript.renderDeclaration setting (.struct h fields base additional) = .ok text) :
    ∃ blocks, text = layout (blockComment h.description ++
        ["export interface " ++ h.name ++ " \x7b"] ++ blocks.flatten ++ ["\x7d"]) ∧
      List.Forall₂ (fun f block => ∃ line name type,
        block = shortBlockComment "  " f.description ++ [line] ∧ renderType f.type = .ok type ∧
        (∀ rest, memberHead? (line.toList ++ rest) =
          some ⟨name, f.mayBeAbsent, ' ' :: type.toList ++ ';' :: rest⟩) ∧
        (name = utf16 f.name ↔ ¬BreaksOff f.name) ∧
        ∀ id : String, isPlainIdentifier id.toList = true → f.name = id ++ "\n" → name = utf16 id)
        fields blocks :=
  exists_members htext

/-- A field that is quoted, and one whose line break is lost. -/
def brokenFields : List Field :=
  [{ name := "x-y", wire := "x-y", type := .any "any" },
    { name := "a\n", wire := "a\n", type := .any "any" }]

theorem memberKeys_denote_broken : ∃ text quoted broken,
    typescript.renderDeclaration { rootName := .null }
      (.struct { name := "Broken" } brokenFields none false) = .ok text ∧
    text = layout ["export interface Broken \x7b", quoted, broken, "\x7d"] ∧
    (∃ rest, memberHead? (quoted.toList ++ ['\n']) = some ⟨utf16 "x-y", false, rest⟩) ∧
    (∃ rest, memberHead? (broken.toList ++ ['\n']) = some ⟨utf16 "a", false, rest⟩) ∧
    utf16 "a" ≠ utf16 "a\n" := by
  obtain ⟨blocks, htext, hblocks⟩ := memberKeys_denote { rootName := .null } { name := "Broken" }
    brokenFields none false _ rfl
  cases hblocks with
  | cons hfirst hrest =>
    cases hrest with
    | cons hsecond hrest =>
      cases hrest
      obtain ⟨line, name, type, rfl, -, hread, hname, -⟩ := hfirst
      obtain ⟨line', name', type', rfl, -, hread', -, hname'⟩ := hsecond
      obtain rfl : name = utf16 "x-y" := hname.2 (by
        rintro ⟨id, -, heq⟩
        have hlast := congrArg (fun s : String => s.toList.getLast?) heq
        simp at hlast)
      obtain rfl : name' = utf16 "a" := hname' "a" (by decide) rfl
      exact ⟨_, line, line', rfl, htext, ⟨_, hread _⟩, ⟨_, hread' _⟩, by decide⟩

end TypeScript

end Typegen.Target
