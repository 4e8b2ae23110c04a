import Typegen.Proofs.LegalNames
import Typegen.Proofs.Literals
import Typegen.Target.Layout

/-!
# Generated code as lexemes

A `Lexis` goes through a text character by character and tells words, string literals and marks from
each other; comments are skipped.  Where it is in the text is a `Mode`, so that a text can be read in
pieces.  `Shut` and `Reads` say what lexemes a piece consists of: a piece that is shut is over, and one
that is only read may leave a word that the next piece must not continue.  `Lines` does the same for
the lines of a declaration.
-/

namespace Typegen.Target

open Text (quote quotedChar isPlainIdentifier isIdentifierTail isIdentifierHead isDigit)

/-- A lexeme of generated code. -/
inductive Lexeme where
  | word (name : String)
  /-- A string literal, as it stands between its quotes. -/
  | text (raw : String)
  | mark (c : Char)
  deriving DecidableEq, Repr

/-- What a language has for lexemes. -/
structure Lexis where
  /-- The signs that belong to the word behind them. -/
  signs : List Char := []
  /-- Whether two slashes, or a slash and a star, begin a comment. -/
  slashComments : Bool := false
  /-- Whether a hash sign begins a comment. -/
  hashComments : Bool := false
  /-- Whether three quotes begin a literal over several lines.  Letters directly in front of a quote
  then belong to the literal. -/
  longTexts : Bool := false
  /-- Whether an escape of four hexadecimal digits is a character wherever it stands, before anything
  else is told.  Of several backslashes in a row only every other one begins such an escape. -/
  earlyEscapes : Bool := false

/-- Where in a text the reader is. -/
inductive Mode where
  | code
  | word (sofar : List Char)
  /-- Behind a slash that may begin a comment. -/
  | slash
  | lineComment
  | blockComment
  /-- Behind a star that may end a comment. -/
  | blockStar
  /-- Behind the first quote of a literal. -/
  | quote
  /-- Behind two quotes, which may begin a literal over several lines. -/
  | quotes
  | text (sofar : List Char)
  | escape (sofar : List Char)
  /-- Inside a literal over several lines, behind some quotes that may end it. -/
  | long (quotes : Nat) (sofar : List Char)
  | longEscape (sofar : List Char)
  /-- Behind a backslash that may begin an early escape. -/
  | backslash (m : Mode)
  /-- Inside an early escape, with so many digits of a number. -/
  | early (m : Mode) (spelled : List Char) (digits n : Nat)
  /-- Behind an early escape that is misspelled. -/
  | stuck
  deriving DecidableEq, Repr

/-- The characters of words.  Which characters beyond ASCII are letters is left open. -/
def isWordPart (c : Char) : Bool := isIdentifierTail c || decide (0x80 ≤ c.toNat)

/-- The characters between lexemes. -/
def isSpace (c : Char) : Bool := c = ' ' || c = '\t' || c = '\n' || c = '\r'

theorem isSpace_eq_false_of_isIdentifierTail {c : Char} (h : isIdentifierTail c = true) :
    isSpace c = false := by
  refine Bool.eq_false_iff.2 fun hspace => ?_
  simp only [isSpace, Bool.or_eq_true, decide_eq_true_eq] at hspace
  rcases hspace with ((rfl | rfl) | rfl) | rfl <;> exact absurd h (by decide)

namespace Lexis

/-- The first character of a lexeme. -/
def start (l : Lexis) (c : Char) : Mode × List Lexeme :=
  if isSpace c then (.code, [])
  else if c = '"' then (.quote, [])
  else if l.slashComments && c = '/' then (.slash, [])
  else if l.hashComments && c = '#' then (.lineComment, [])
  else if isWordPart c && !isDigit c || l.signs.contains c then (.word [c], [])
  else (.code, [.mark c])

/-- A character behind some lexemes that it does not continue. -/
def afresh (l : Lexis) (pending : List Lexeme) (c : Char) : Mode × List Lexeme :=
  ((l.start c).1, pending ++ (l.start c).2)

/-- A character inside a string literal. -/
def stepText (spelled sofar : List Char) (c : Char) : Mode × List Lexeme :=
  if c = '"' then (.code, [.text (String.ofList sofar)])
  else if c = '\\' then (.escape (sofar ++ spelled), [])
  else (.text (sofar ++ spelled), [])

/-- What a character leads to, and the lexemes that end with it.  Literals keep its spelling. -/
def take (l : Lexis) (spelled : List Char) : Mode → Char → Mode × List Lexeme
  | .code, c => l.start c
  | .word w, c =>
    if isWordPart c then (.word (w ++ [c]), [])
    else if l.longTexts && c = '"' then (.quote, [])
    else l.afresh [.word (String.ofList w)] c
  | .slash, c =>
    if c = '/' then (.lineComment, [])
    else if c = '*' then (.blockComment, [])
    else l.afresh [.mark '/'] c
  | .lineComment, c => (if c = '\n' || c = '\r' then .code else .lineComment, [])
  | .blockComment, c => (if c = '*' then .blockStar else .blockComment, [])
  | .blockStar, c =>
    (if c = '/' then .code else if c = '*' then .blockStar else .blockComment, [])
  | .quote, c => if l.longTexts && c = '"' then (.quotes, []) else stepText spelled [] c
  | .quotes, c => if c = '"' then (.long 0 [], []) else l.afresh [.text ""] c
  | .text w, c => stepText spelled w c
  | .escape w, _ => (.text (w ++ spelled), [])
  | .long n w, c =>
    if c = '"' then
      if n = 2 then (.code, [.text (String.ofList w)]) else (.long (n + 1) w, [])
    else if c = '\\' then (.longEscape (w ++ List.replicate n '"'), [])
    else (.long 0 (w ++ List.replicate n '"' ++ [c]), [])
  | .longEscape w, c => (.long 0 (w ++ ['\\', c]), [])
  | _, _ => (.stuck, [])

/-- The character of a UTF-16 unit.  Half of a surrogate pair is a part of a word, like every character
beyond ASCII. -/
def unitChar (n : Nat) : Char := if 0xd800 ≤ n && n < 0xe000 then '\ufffd' else Char.ofNat n

/-- What a character of the source leads to, and the lexemes that end with it. -/
def step (l : Lexis) : Mode → Char → Mode × List Lexeme
  | .backslash m, c =>
    if c = 'u' then (.early m ['\\', 'u'] 0 0, [])
    else
      let r := l.take ['\\'] m '\\'
      ((l.take [c] r.1 c).1, r.2 ++ (l.take [c] r.1 c).2)
  | .early m spelled digits n, c =>
    if c = 'u' && digits = 0 then (.early m (spelled ++ [c]) 0 0, [])
    else match Text.hexValue? c with
      | none => (.stuck, [])
      | some v =>
        if digits = 3 then l.take (spelled ++ [c]) m (unitChar (16 * n + v))
        else (.early m (spelled ++ [c]) (digits + 1) (16 * n + v), [])
  | m, c => if c = '\\' && l.earlyEscapes then (.backslash m, []) else l.take [c] m c

/-- The lexemes that end in a text, and where its reader is behind it. -/
def scan (l : Lexis) : Mode → List Char → List Lexeme × Mode
  | m, [] => ([], m)
  | m, c :: cs =>
    ((l.step m c).2 ++ (l.scan (l.step m c).1 cs).1, (l.scan (l.step m c).1 cs).2)

/-- The lexemes of a text that ends with its last line. -/
def lexemes (l : Lexis) (text : String) : List Lexeme := (l.scan .code (text.toList ++ ['\n'])).1

variable {l : Lexis} {m m' : Mode} {cs ds : List Char} {ts us : List Lexeme}

theorem scan_append (l : Lexis) (m : Mode) (cs ds : List Char) : l.scan m (cs ++ ds) =
    ((l.scan m cs).1 ++ (l.scan (l.scan m cs).2 ds).1, (l.scan (l.scan m cs).2 ds).2) := by
  induction cs generalizing m with
  | nil => rfl
  | cons c cs ih =>
    rw [List.cons_append, scan, ih, scan, List.append_assoc]

theorem scan_trans (h : l.scan m cs = (ts, m')) : l.scan m (cs ++ ds) =
    (ts ++ (l.scan m' ds).1, (l.scan m' ds).2) := by
  rw [scan_append, h]

end Lexis

/-- The lexemes that are pending: they end unless the next character continues them. -/
def Mode.pending? : Mode → Option (List Lexeme)
  | .code => some []
  | .word w => some [.word (String.ofList w)]
  | .slash => some [.mark '/']
  | .quotes => some [.text ""]
  | _ => none

theorem nonEmpty_of_isPlainIdentifier {name : String} (h : isPlainIdentifier name.toList = true) :
    nonEmpty (some name) = some name := by
  apply if_neg
  rintro rfl
  cases h

/-- A character that continues no lexeme. -/
def isApart (c : Char) : Bool := !isWordPart c && c ≠ '"' && c ≠ '/' && c ≠ '*' && c ≠ '\\'

/-- A text that continues no lexeme. -/
def startsApart (s : String) : Bool := s.toList.head?.any isApart

namespace Lexis

variable {l : Lexis} {m m' : Mode} {cs ds w : List Char} {ts us : List Lexeme} {a b : String}
  {c : Char} {as : List String}

theorem step_pending (h : m.pending? = some ts) (hc : isApart c = true) :
    l.step m c = ((l.start c).1, ts ++ (l.start c).2) := by
  simp only [isApart, Bool.and_eq_true, Bool.not_eq_true', decide_eq_true_eq, ne_eq] at hc
  obtain ⟨⟨⟨⟨hword, hquote⟩, hslash⟩, hstar⟩, hbackslash⟩ := hc
  cases m with
  | code | word | slash | quotes =>
    cases h
    simp [step, take, afresh, hword, hquote, hslash, hstar, hbackslash]
  | _ => cases h

theorem scan_pending (h : m.pending? = some ts) (hcs : cs.head?.any isApart = true) :
    l.scan m cs = (ts ++ (l.scan .code cs).1, (l.scan .code cs).2) := by
  cases cs with
  | nil => cases hcs
  | cons c cs =>
    rw [scan, scan, step_pending h hcs, step_pending rfl hcs, List.nil_append, List.append_assoc]

/-! ## Pieces -/

/-- A piece of code that consists of some lexemes and is over. -/
def Shut (l : Lexis) (s : String) (ts : List Lexeme) : Prop := l.scan .code s.toList = (ts, .code)

/-- A piece of code that consists of some lexemes, unless what follows continues the last of them. -/
def Reads (l : Lexis) (s : String) (ts : List Lexeme) : Prop :=
  ∃ us m vs, l.scan .code s.toList = (us, m) ∧ m.pending? = some vs ∧ ts = us ++ vs

theorem Reads.of_eq (h : l.Reads a ts) (hts : us = ts) : l.Reads a us := hts ▸ h

theorem Shut.reads (h : l.Shut a ts) : l.Reads a ts := ⟨ts, .code, [], h, rfl, by simp⟩

theorem Shut.append (ha : l.Shut a ts) (hb : l.Shut b us) : l.Shut (a ++ b) (ts ++ us) := by
  unfold Shut at ha hb ⊢
  rw [String.toList_append, scan_trans ha, hb]

theorem Shut.append_reads (ha : l.Shut a ts) (hb : l.Reads b us) : l.Reads (a ++ b) (ts ++ us) := by
  obtain ⟨vs, m, ws, hscan, hpending, rfl⟩ := hb
  refine ⟨ts ++ vs, m, ws, ?_, hpending, by simp⟩
  rw [String.toList_append, scan_trans ha, hscan]

theorem startsApart_ofList (hs : a = String.ofList (c :: cs)) (hc : isApart c = true) :
    startsApart a = true := by
  rw [startsApart, hs, String.toList_ofList]
  exact hc

theorem Reads.append_shut (ha : l.Reads a ts) (hb : l.Shut b us)
    (hapart : startsApart b = true := by exact Lexis.startsApart_ofList rfl rfl) :
    l.Shut (a ++ b) (ts ++ us) := by
  obtain ⟨vs, m, ws, hscan, hpending, rfl⟩ := ha
  unfold Shut at hb ⊢
  rw [String.toList_append, scan_trans hscan, scan_pending hpending hapart, hb, List.append_assoc]

theorem Reads.append (ha : l.Reads a ts) (hb : l.Reads b us)
    (hapart : startsApart b = true := by exact Lexis.startsApart_ofList rfl rfl) :
    l.Reads (a ++ b) (ts ++ us) := by
  obtain ⟨vs, m, ws, hscan, hpending, rfl⟩ := ha
  obtain ⟨vs', m', ws', hscan', hpending', rfl⟩ := hb
  refine ⟨vs ++ ws ++ vs', m', ws', ?_, hpending', by simp⟩
  rw [String.toList_append, scan_trans hscan, scan_pending hpending hapart, hscan',
    List.append_assoc]

/-- A piece between two that are shut. -/
theorem Shut.enclose {c : String} {vs : List Lexeme} (ha : l.Shut a ts) (hb : l.Reads b us)
    (hc : l.Shut c vs) (hapart : startsApart c = true := by exact Lexis.startsApart_ofList rfl rfl) :
    l.Shut (a ++ b ++ c) (ts ++ us ++ vs) :=
  (ha.append_reads hb).append_shut hc hapart

/-- A piece is read by its characters. -/
theorem scan_ofList (hs : a = String.ofList cs) (h : l.scan m cs = (ts, m')) :
    l.scan m a.toList = (ts, m') := by
  rw [hs, String.toList_ofList, h]

theorem shut_ofList (hs : a = String.ofList cs) (h : l.scan .code cs = (ts, .code)) :
    l.Shut a ts :=
  scan_ofList hs h

theorem reads_ofList (hs : a = String.ofList cs) (h : l.scan .code cs = (ts, m))
    (hm : m.pending? = some us) : l.Reads a (ts ++ us) :=
  ⟨ts, m, us, scan_ofList hs h, hm, rfl⟩

/-! ## Names and literals -/

theorem isWordPart_of_isIdentifierTail (h : isIdentifierTail c = true) : isWordPart c = true := by
  simp [isWordPart, h]

theorem ne_backslash_of_isIdentifierTail (h : isIdentifierTail c = true) : c ≠ '\\' := by
  rintro rfl
  exact absurd h (by decide)

theorem scan_word (hcs : ∀ c ∈ cs, isIdentifierTail c = true) :
    l.scan (.word w) cs = ([], .word (w ++ cs)) := by
  induction cs generalizing w with
  | nil => simp [scan]
  | cons c cs ih =>
    rw [List.forall_mem_cons] at hcs
    have hstep : l.step (.word w) c = (.word (w ++ [c]), []) := by
      simp [step, take, isWordPart_of_isIdentifierTail hcs.1,
        ne_backslash_of_isIdentifierTail hcs.1]
    rw [scan, hstep, ih hcs.2]
    simp

/-- An identifier is one word. -/
theorem reads_name {name : String} (h : isPlainIdentifier name.toList = true) :
    l.Reads name [.word name] := by
  cases hchars : name.toList with
  | nil =>
    rw [hchars] at h
    cases h
  | cons c cs =>
    rw [hchars, isPlainIdentifier, Bool.and_eq_true, List.all_eq_true] at h
    obtain ⟨hhead, htail⟩ := h
    have hother : ∀ d, isIdentifierHead d = false → c ≠ d := by
      rintro d hd rfl
      rw [hhead] at hd
      cases hd
    have hc : isIdentifierTail c = true := by simp [isIdentifierTail, hhead]
    have hpart : isWordPart c = true := isWordPart_of_isIdentifierTail hc
    have hspace : isSpace c = false := isSpace_eq_false_of_isIdentifierTail hc
    have hstart : l.start c = (.word [c], []) := by
      simp [start, hspace, hother '"' (by decide), hother '/' (by decide), hother '#' (by decide),
        hpart, Text.isDigit_eq_false_of_isIdentifierHead hhead]
    have hstep : l.step .code c = (.word [c], []) := by
      simp [step, take, hstart, ne_backslash_of_isIdentifierTail hc]
    refine ⟨[], .word (c :: cs), [.word name], ?_, ?_, rfl⟩
    · rw [hchars, scan, hstep, scan_word htail]
      rfl
    · rw [Mode.pending?, ← hchars, String.ofList_toList]

theorem unitChar_ne {n : Nat} (hspecial : n ∉ specials) :
    unitChar n ≠ '"' ∧ unitChar n ≠ '\\' := by
  have hne : ∀ c : Char, c.toNat ≠ 0 → c.toNat ≠ n → Char.ofNat n ≠ c := by
    rintro c hzero hc rfl
    by_cases hvalid : n.isValidChar
    · exact hc (by rw [Char.ofNat, dif_pos hvalid]; rfl)
    · exact hzero (by rw [Char.ofNat, dif_neg hvalid]; rfl)
  simp only [specials, List.mem_cons, not_or] at hspecial
  unfold unitChar
  split
  · exact ⟨by decide, by decide⟩
  · exact ⟨hne _ (by decide) (Ne.symm hspecial.1), hne _ (by decide) (Ne.symm hspecial.2.1)⟩

/-- Inside a literal, of which some characters have been read. -/
inductive InText : Mode → List Char → Prop
  | quote : InText .quote []
  | text (w : List Char) : InText (.text w) w

/-- An escape of a unit is a part of a literal, unless it is a quote or a backslash. -/
theorem scan_unitEscape {n : Nat} (hm : InText m w) (hn : n < 0x10000) (hspecial : n ∉ specials) :
    l.scan m (Text.unitEscape n) = ([], .text (w ++ Text.unitEscape n)) := by
  have hdigit : ∀ k, Text.hexValue? (Text.hexDigit (k % 16)) = some (k % 16) ∧
      Text.hexDigit (k % 16) ≠ '"' ∧ Text.hexDigit (k % 16) ≠ '\\' ∧
      Text.hexDigit (k % 16) ≠ 'u' := fun k =>
    have hk := Nat.mod_lt k (by decide : 0 < 16)
    ⟨Text.hexValue?_hexDigit _ hk, (hexDigit_printable _ hk).2⟩
  have hdigits : Text.unitEscape n = ['\\', 'u', Text.hexDigit (n / 16 / 16 / 16 % 16),
      Text.hexDigit (n / 16 / 16 % 16), Text.hexDigit (n / 16 % 16), Text.hexDigit (n % 16)] := rfl
  have hvalue : 16 * (16 * (16 * (n / 16 / 16 / 16 % 16) + n / 16 / 16 % 16) + n / 16 % 16) +
      n % 16 = n := by omega
  have hchar := unitChar_ne hspecial
  rw [hdigits]
  cases hm <;> cases hearly : l.earlyEscapes <;>
    simp [scan, step, take, stepText, hearly, hdigit, hvalue, hchar]

/-- A quoted character is a part of a literal. -/
theorem scan_quotedChar (hm : InText m w) (c : Char) :
    l.scan m (quotedChar c) = ([], .text (w ++ quotedChar c)) := by
  have hquoted := quotedAs_quotedChar c
  generalize quotedChar c = cs at hquoted
  cases hquoted with
  | @escape e he =>
    have hu : Char.ofNat e ≠ 'u' := fun h =>
      (lt_of_mem_quotedEscapes he).2.2.2 ((toNat_ofNat_of_mem he).symm.trans (by rw [h]; rfl))
    cases hm <;> cases hearly : l.earlyEscapes <;>
      simp [scan, step, take, stepText, hearly, hu]
  | plain hc =>
    have hquote : c ≠ '"' := by rintro rfl; exact hc (by decide)
    have hbackslash : c ≠ '\\' := by rintro rfl; exact hc (by decide)
    cases hm <;> simp [scan, step, take, stepText, hquote, hbackslash]
  | units hc =>
    have hunit : ∀ {m w}, InText m w → ∀ n ∈ Text.utf16Units c.toNat,
        l.scan m (Text.unitEscape n) = ([], .text (w ++ Text.unitEscape n)) := fun hm n hn =>
      scan_unitEscape hm (lt_of_mem_utf16Units hn) (Java.notMem_specials_of_mem_utf16Units hc hn)
    unfold Text.utf16Units at hunit ⊢
    split at hunit <;> rename_i hlt
    · simpa [hlt] using hunit hm
    · have hfirst := hunit hm _ List.mem_cons_self
      have hsecond := fun w => hunit (.text w) _ (List.mem_cons_of_mem _ List.mem_cons_self)
      simp [hlt, scan_trans hfirst, hsecond]

theorem scan_quoted (hm : InText m w) (c : Char) (cs : List Char) :
    l.scan m ((c :: cs).flatMap quotedChar) =
      ([], .text (w ++ (c :: cs).flatMap quotedChar)) := by
  induction cs generalizing m w c with
  | nil => simpa using scan_quotedChar hm c
  | cons d cs ih =>
    rw [List.flatMap_cons, scan_trans (scan_quotedChar hm c), ih (.text _), List.append_assoc]
    rfl

/-- A quoted string is one literal. -/
theorem reads_quote (s : String) :
    l.Reads (quote s) [.text (String.ofList (s.toList.flatMap quotedChar))] := by
  have hchars : (quote s).toList = '"' :: (s.toList.flatMap quotedChar ++ ['"']) := by
    simp [quote, Text.quotedChars]
  rw [Reads, hchars]
  cases s.toList with
  | nil =>
    cases hlong : l.longTexts with
    | true => exact ⟨[], .quotes, _, by simp [scan, step, take, start, isSpace, hlong], rfl, rfl⟩
    | false =>
      exact ⟨_, .code, [], by simp [scan, step, take, start, isSpace, stepText, hlong]; rfl, rfl,
        by simp⟩
  | cons c cs =>
    have hbody := scan_quoted (l := l) .quote c cs
    refine ⟨_, .code, [], ?_, rfl, (List.append_nil _).symm⟩
    rw [scan, show l.step .code '"' = (.quote, []) by simp [step, take, start, isSpace],
      scan_trans hbody]
    rfl

theorem scan_text_name (hcs : ∀ c ∈ cs, isIdentifierTail c = true) :
    l.scan (.text w) cs = ([], .text (w ++ cs)) := by
  induction cs generalizing w with
  | nil => simp [scan]
  | cons c cs ih =>
    rw [List.forall_mem_cons] at hcs
    have hother : ∀ d, isIdentifierTail d = false → c ≠ d := by
      rintro d hd rfl
      exact Bool.false_ne_true (hd.symm.trans hcs.1)
    have hstep : l.step (.text w) c = (.text (w ++ [c]), []) := by
      simp [step, take, stepText, hother '"' (by decide), hother '\\' (by decide)]
    rw [scan, hstep, ih hcs.2]
    simp

/-- Escaped quotes do not end a literal over several lines. -/
theorem scan_long (hearly : l.earlyEscapes = false) {n : Nat} (hn : n ≤ 1)
    (hcs : quotesEscaped cs = true) :
    ∃ n' w', n' ≤ 1 ∧ l.scan (.long n w) cs = ([], .long n' w') := by
  fun_induction quotesEscaped cs generalizing n w with
  | case1 c rest ih =>
    obtain ⟨n', w', hn', hscan⟩ := ih (n := 0) (w := w ++ List.replicate n '"' ++ ['\\', c])
      (by omega) hcs
    exact ⟨n', w', hn', by simp [scan, step, take, hearly, hscan, -List.append_assoc]⟩
  | case2 c rest _ ih =>
    simp only [Bool.and_eq_true, decide_eq_true_eq, ne_eq] at hcs
    obtain ⟨n', w', hn', hscan⟩ := ih (n := 0) (w := w ++ List.replicate n '"' ++ [c]) (by omega)
      hcs.2
    exact ⟨n', w', hn', by simp [scan, step, take, hcs.1, hscan, -List.append_assoc]⟩
  | case3 => exact ⟨n, w, hn, rfl⟩

/-- A quoted string inside a literal over several lines is a part of it. -/
theorem scan_long_quote (hearly : l.earlyEscapes = false) (w : List Char) (s : String) :
    ∃ n w', l.scan (.long 0 w) (quote s).toList = ([], .long n w') := by
  have hchars : (quote s).toList = '"' :: (s.toList.flatMap quotedChar ++ ['"']) := by
    simp [quote, Text.quotedChars]
  obtain ⟨n, w', hn, hscan⟩ := scan_long hearly (n := 1) (w := w) (by omega)
    (quotesEscaped_quoted s.toList)
  have hstep : l.step (.long 0 w) '"' = (.long 1 w, []) := rfl
  have hlast : l.scan (.long n w') ['"'] = ([], .long (n + 1) w') := by
    simp [scan, step, take, show n ≠ 2 by omega]
  exact ⟨n + 1, w', by rw [hchars, scan, hstep, scan_trans hscan, hlast]; rfl⟩

/-! ## Lines -/

/-- A line of code that consists of some lexemes. -/
def Line (l : Lexis) (s : String) (ts : List Lexeme) : Prop :=
  l.scan .code (s.toList ++ ['\n']) = (ts, .code)

/-- Lines of code that consist of some lexemes. -/
def Lines (l : Lexis) (lines : List String) (ts : List Lexeme) : Prop :=
  l.scan .code (lines.flatMap fun s => s.toList ++ ['\n']) = (ts, .code)

theorem start_newline (l : Lexis) : l.start '\n' = (.code, []) := rfl

theorem Reads.line (h : l.Reads a ts) : l.Line a ts := by
  obtain ⟨us, m, vs, hscan, hpending, rfl⟩ := h
  have hnewline : l.scan .code ['\n'] = ([], .code) := rfl
  rw [Line, scan_trans hscan, scan_pending hpending (by decide), hnewline, List.append_nil]

theorem Shut.line (h : l.Shut a ts) : l.Line a ts := h.reads.line

/-- A line is read by its characters. -/
theorem line_ofList (hs : a = String.ofList cs) (h : l.scan .code (cs ++ ['\n']) = (ts, .code)) :
    l.Line a ts := by
  rw [Line, hs, String.toList_ofList, h]

theorem Lines.nil : l.Lines [] [] := rfl

theorem Lines.append {bs : List String} (ha : l.Lines as ts) (hb : l.Lines bs us) :
    l.Lines (as ++ bs) (ts ++ us) := by
  unfold Lines at ha hb ⊢
  rw [List.flatMap_append, scan_trans ha, hb]

theorem Line.lines (h : l.Line a ts) : l.Lines [a] ts := by
  unfold Lines
  rw [List.flatMap_singleton]
  exact h

theorem Lines.cons {as : List String} (ha : l.Line a ts) (has : l.Lines as us) :
    l.Lines (a :: as) (ts ++ us) :=
  ha.lines.append has

theorem Lines.of_eq (h : l.Lines as ts) (hts : us = ts) : l.Lines as us := hts ▸ h

theorem lines_if {b : Bool} (h : l.Lines as ts) :
    l.Lines (if b then as else []) (if b then ts else []) := by
  cases b
  · exact .nil
  · exact h

section

variable {α : Type} {g : α → List Lexeme} {xs : List α} {liness : List (List String)}

theorem lines_intersperse {sep : List String} (hsep : l.Lines sep [])
    (h : List.Forall₂ (fun x lines => l.Lines lines (g x)) xs liness) :
    l.Lines (liness.intersperse sep).flatten (xs.flatMap g) := by
  induction h with
  | nil => exact .nil
  | @cons x lines xs' liness' hfirst hrest ih =>
    cases hrest with
    | nil => simpa using hfirst
    | cons =>
      rw [List.intersperse_cons_cons, List.flatten_cons, List.flatten_cons, List.flatMap_cons]
      exact hfirst.append (hsep.append ih)

end

/-! ## The layout of lines -/

/-- Nothing ends with a line break. -/
def IsQuiet (m : Mode) : Prop := (m.pending? = none ∧ ∀ m', m ≠ .backslash m') ∨ m = .code

theorem isQuiet_step_newline (l : Lexis) (m : Mode) : IsQuiet (l.step m '\n').1 := by
  have hword : isWordPart '\n' = false := by decide
  have hdigit : Text.hexValue? '\n' = none := by decide
  have htake : ∀ m, IsQuiet (l.take ['\n'] m '\n').1 := by
    intro m
    cases m <;> simp [IsQuiet, take, stepText, afresh, Mode.pending?, start_newline, hword]
  cases m with
  | backslash => exact htake _
  | early => simp [step, hdigit, IsQuiet, Mode.pending?]
  | _ => simpa [step] using htake _

theorem IsQuiet.step_newline (h : IsQuiet m) : (l.step m '\n').2 = [] := by
  have hdigit : Text.hexValue? '\n' = none := by decide
  obtain ⟨hpending, hbackslash⟩ | rfl := h
  · cases m with
    | code | word | slash | quotes => cases hpending
    | backslash => exact absurd rfl (hbackslash _)
    | early => simp [step, hdigit]
    | _ => simp [step, take, stepText]
  · rfl

/-- Behind a line break nothing is pending, and more line breaks bring nothing. -/
theorem scan_newlines (l : Lexis) (m : Mode) (n : Nat) :
    (l.scan m (List.replicate (n + 1) '\n')).1 = (l.scan m ['\n']).1 := by
  have hquiet : ∀ (n : Nat) (m : Mode), IsQuiet m →
      (l.scan m (List.replicate n '\n')).1 = [] := by
    intro n
    induction n with
    | zero => intros; rfl
    | succ n ih =>
      intro m hm
      rw [List.replicate_succ, scan, hm.step_newline, ih _ (isQuiet_step_newline l m),
        List.append_nil]
  rw [List.replicate_succ, scan, hquiet n _ (isQuiet_step_newline l m), scan, scan]

theorem exists_newlines (cs : List Char) : ∃ i j,
    cs = List.replicate i '\n' ++ (trimNewlines (String.ofList cs)).toList ++
      List.replicate j '\n' := by
  have hfront : ∀ ds : List Char, ∃ i, ds = List.replicate i '\n' ++ ds.dropWhile (· = '\n') := by
    intro ds
    refine ⟨(ds.takeWhile (· = '\n')).length, ?_⟩
    conv_lhs => rw [← List.takeWhile_append_dropWhile (p := (· = '\n')) (l := ds)]
    congr 1
    refine List.eq_replicate_iff.2 ⟨rfl, fun c hc => ?_⟩
    simpa using List.mem_takeWhile_imp hc
  obtain ⟨i, hi⟩ := hfront cs
  obtain ⟨j, hj⟩ := hfront (cs.dropWhile (· = '\n')).reverse
  refine ⟨i, j, ?_⟩
  have hback : cs.dropWhile (· = '\n') =
      (trimNewlines (String.ofList cs)).toList ++ List.replicate j '\n' := by
    have hreversed := congrArg List.reverse hj
    simpa [trimNewlines, Text.dropRightWhile] using hreversed
  rw [List.append_assoc, ← hback]
  exact hi

/-- Line breaks at the ends of a text are no part of its lexemes. -/
theorem lexemes_trimNewlines (l : Lexis) (s : String) :
    l.lexemes (trimNewlines s) = l.lexemes s := by
  obtain ⟨i, j, hs⟩ := exists_newlines s.toList
  rw [String.ofList_toList] at hs
  have hstep : l.step .code '\n' = (.code, []) := rfl
  have hfront : ∀ (i : Nat) (ds : List Char),
      l.scan .code (List.replicate i '\n' ++ ds) = l.scan .code ds := by
    intro i ds
    induction i with
    | zero => rfl
    | succ i ih => rw [List.replicate_succ, List.cons_append, scan, hstep, ih]; rfl
  rw [lexemes, lexemes, hs, List.append_assoc, List.append_assoc, hfront, ← List.replicate_succ',
    scan_append, scan_append l .code (trimNewlines s).toList (List.replicate (j + 1) '\n'),
    scan_newlines]

theorem toList_intercalate_newline (a : String) (as : List String) :
    ("\n".intercalate (a :: as)).toList ++ ['\n'] =
      (a :: as).flatMap fun s => s.toList ++ ['\n'] := by
  induction as generalizing a with
  | nil => simp
  | cons b as ih =>
    rw [String.intercalate_cons_cons, String.toList_append, String.toList_append, List.append_assoc,
      ih, List.flatMap_cons]
    rfl

/-- The lexemes of a layout are those of its lines. -/
theorem lexemes_layout {lines : List String} (h : l.Lines lines ts) :
    l.lexemes (layout lines) = ts := by
  rw [layout, lexemes_trimNewlines, lexemes]
  cases lines with
  | nil =>
    cases h
    rfl
  | cons a as => rw [toList_intercalate_newline, h]

end Lexis

end Typegen.Target
