import Typegen.Proofs.Comments
import Typegen.Proofs.Shapes
import Typegen.Proofs.TypeLexemes
import Typegen.Target.Render

/-!
# String literals in TypeScript declarations

`Quotes` says which strings a piece of code quotes, by the view on its literals.  The strings that a
declaration quotes are the values of an enumeration, and of a struct the keys that are no identifiers
and the literals in the types of its fields, in order (`exists_text`).
-/

namespace Typegen

/-- The strings of the literals in an expression. -/
def TypeExpr.strings (t : TypeExpr) : List String :=
  (t.walk.filter fun e => e.kind = .literal).map (·.name)

namespace Target.TypeScript

open Lexeme (word mark quoted)
open Lexis (shut_ofList reads_ofList line_ofList reads_name reads_quote)

/-- The lexemes. -/
def lexis : Lexis := { slashComments := true }

/-! ## Quoted strings -/

/-- A piece of code that quotes some strings, in this order, and holds no other literals. -/
abbrev Quotes (text : String) (strings : List String) : Prop :=
  lexis.Shows Lexeme.raw? text (strings.map quotedBody)

/-- Lines of code that quote some strings, in this order, and hold no other literals. -/
abbrev LinesQuote (lines strings : List String) : Prop :=
  lexis.LinesShow Lexeme.raw? lines (strings.map quotedBody)

theorem quotes_name {name : String} (h : Text.isPlainIdentifier name.toList = true) :
    Quotes name [] :=
  ⟨_, reads_name h, rfl⟩

theorem quotes_quote (s : String) : Quotes (Text.quote s) [s] := ⟨_, reads_quote s, rfl⟩

/-- Alternatives quote what each of them quotes. -/
theorem quotes_intercalate {α : Type} {f : α → String} {g : α → List String} {xs : List α}
    (h : ∀ x ∈ xs, Quotes (f x) (g x)) : Quotes (" | ".intercalate (xs.map f)) (xs.flatMap g) := by
  have hbar : lexis.Shut " | " [mark '|'] := shut_ofList rfl rfl
  have hall := Lexis.shows_intercalate hbar rfl (Lexis.startsApart_ofList rfl rfl) h
  exact hall.of_eq List.map_flatMap

/-! ## Types -/

section

variable {t : TypeExpr} {P : String → Prop}

theorem isPlainIdentifier_spelling (p : Schema.Primitive) :
    Text.isPlainIdentifier (Target.typescript.spelling p).toList = true := by
  cases p <;> decide

theorem strings_of_args {item : TypeExpr} (hkind : decide (t.kind = .literal) = false)
    (hargs : t.args = [item]) : t.strings = item.strings := by
  simp [TypeExpr.strings, TypeExpr.walk_eq t, hargs, TypeExpr.walkAll_eq, hkind]

theorem exists_quotes_renderType (h : t.Formed .typescript P)
    (hnames : ∀ id, P id → Text.isPlainIdentifier id.toList = true) :
    ∃ text, renderType t = .ok text ∧ Quotes text t.strings := by
  induction h with
  | any => exact ⟨_, rfl, quotes_name (by decide)⟩
  | primitive p notes => exact ⟨_, rfl, quotes_name (isPlainIdentifier_spelling p)⟩
  | @named id hid definition byReference => exact ⟨_, rfl, quotes_name (hnames id hid)⟩
  | literal value => exact ⟨_, rfl, quotes_quote value⟩
  | @array item _ ih =>
    obtain ⟨text, htext, hquotes⟩ := ih
    refine ⟨_, bind_eq_ok.2 ⟨text, htext, rfl⟩, ?_⟩
    have hopen : lexis.Shut "(" [mark '('] := shut_ofList rfl rfl
    have hclose : lexis.Shut ")" [mark ')'] := shut_ofList rfl rfl
    have hbrackets : lexis.Shut "[]" [mark '[', mark ']'] := shut_ofList rfl rfl
    rw [strings_of_args rfl rfl]
    refine Lexis.Shows.append_shut ?_ hbrackets rfl
    split
    · exact .enclose hopen rfl hquotes hclose rfl
    · exact hquotes
  | @map item _ ih =>
    obtain ⟨text, htext, hquotes⟩ := ih
    have hopen : lexis.Shut "\x7b [key: string]: "
        [mark '\x7b', mark '[', word "key", mark ':', word "string", mark ']', mark ':'] :=
      shut_ofList rfl rfl
    have hclose : lexis.Shut " \x7d" [mark '\x7d'] := shut_ofList rfl rfl
    refine ⟨_, bind_eq_ok.2 ⟨text, htext, rfl⟩, ?_⟩
    rw [strings_of_args rfl rfl]
    exact .enclose hopen rfl hquotes hclose rfl
  | @optional item _ absent null ih =>
    obtain ⟨text, htext, hquotes⟩ := ih
    refine ⟨_, bind_eq_ok.2 ⟨text, htext, rfl⟩, ?_⟩
    rw [strings_of_args rfl rfl]
    cases null with
    | false => exact hquotes
    | true =>
      have hnull : lexis.Reads " | null" ([mark '|'] ++ [word "null"]) := reads_ofList rfl rfl rfl
      obtain ⟨ts, hreads, hts⟩ := hquotes
      refine ⟨_, hreads.append hnull, ?_⟩
      rw [List.filterMap_append, hts]
      exact List.append_nil _

end

/-! ## Declarations -/

/-- The strings that are quoted in a member of an interface. -/
def memberStrings (f : Field) : List String :=
  (if Text.isIdentifier f.wire then [] else [f.wire]) ++ f.type.strings

/-- The strings that are quoted in a declaration. -/
def strings : Declaration → List String
  | .struct _ fields _ _ => fields.flatMap memberStrings
  | .enum _ members => members.map Prod.snd
  | .union _ _ _ _ => []
  | .synonym _ target => target.strings

theorem quotes_memberKey (name : String) :
    Quotes (memberKey name) (if Text.isIdentifier name then [] else [name]) := by
  unfold memberKey
  split
  · next h =>
    rw [Text.isIdentifier, Text.dropFinalNewline] at h
    split at h
    · next hlast =>
      have hnewline : lexis.Shut "\n" [] := shut_ofList rfl rfl
      have hchars : name = String.ofList name.toList.dropLast ++ "\n" := by
        apply String.toList_inj.1
        simp [List.dropLast_append_getLast?, hlast]
      rw [hchars]
      exact (quotes_name (by rwa [String.toList_ofList])).append_shut hnewline rfl (by decide)
    · exact quotes_name h
  · exact quotes_quote name

section

variable {names : Naming.Table}

theorem exists_memberLines (htypes : ∀ id ∈ names.typeNames, Text.isPlainIdentifier id.toList = true)
    {f : Field} (hname : f.name = f.wire) (htype : f.type.Formed .typescript (· ∈ names.typeNames)) :
    ∃ lines, memberLines f = .ok lines ∧ LinesQuote lines (memberStrings f) := by
  obtain ⟨type, hrender, hquotes⟩ := exists_quotes_renderType htype htypes
  have hindent : lexis.Shut "  " [] := shut_ofList rfl rfl
  have hmark : lexis.Shut "?" [mark '?'] := shut_ofList rfl rfl
  have hcolon : lexis.Shut ": " [mark ':'] := shut_ofList rfl rfl
  have hend : lexis.Shut ";" [mark ';'] := shut_ofList rfl rfl
  have hkey : Quotes ("  " ++ memberKey f.name ++ if f.mayBeAbsent then "?" else "")
      (if Text.isIdentifier f.wire then [] else [f.wire]) := by
    have hplain := Lexis.Shows.prepend hindent rfl (quotes_memberKey f.name)
    rw [hname] at hplain ⊢
    cases f.mayBeAbsent with
    | true => exact hplain.append_shut hmark rfl
    | false => simpa using hplain
  refine ⟨_, bind_eq_ok.2 ⟨type, hrender, rfl⟩, ?_⟩
  have hcomment : LinesQuote (shortBlockComment "  " f.description) [] :=
    ⟨[], Lexis.lines_shortBlockComment rfl (fun _ _ h => absurd h Bool.false_ne_true) hindent, rfl⟩
  have hmember := (hkey.between hquotes hcolon rfl).append_shut hend rfl
  exact (hcomment.append hmember.lines).of_eq (by simp [memberStrings])

theorem exists_structLines
    (htypes : ∀ id ∈ names.typeNames, Text.isPlainIdentifier id.toList = true) {h : Header}
    (hname : Text.isPlainIdentifier h.name.toList = true) {fields : List Field}
    (hfields : ∀ f ∈ fields, f.name = f.wire ∧ f.type.Formed .typescript (· ∈ names.typeNames))
    (base : Option String) (additional : Bool) :
    ∃ lines, declarationLines (.struct h fields base additional) = .ok lines ∧
      LinesQuote lines (fields.flatMap memberStrings) := by
  obtain ⟨liness, hliness, hall⟩ := exists_mapM fun f hf =>
    exists_memberLines htypes (hfields f hf).1 (hfields f hf).2
  refine ⟨_, bind_eq_ok.2 ⟨liness, hliness, rfl⟩, ?_⟩
  have hcomment : LinesQuote (blockComment h.description) [] :=
    ⟨[], Lexis.lines_blockComment rfl (fun _ _ h => absurd h Bool.false_ne_true), rfl⟩
  have hinterface : lexis.Shut "export interface " [word "export", word "interface"] :=
    shut_ofList rfl rfl
  have hopen : lexis.Shut " \x7b" [mark '\x7b'] := shut_ofList rfl rfl
  have hfirst := Lexis.Shows.enclose hinterface rfl (quotes_name hname) hopen rfl
  have hlast : LinesQuote ["\x7d"] [] :=
    ⟨[mark '\x7d'], Lexis.Line.lines (line_ofList rfl rfl), rfl⟩
  have hmembers := Lexis.linesShow_flatten hall
  exact (((hcomment.append hfirst.lines).append hmembers).append hlast).of_eq (by
    simp [List.map_flatMap])

/-- The line of a name for a type. -/
theorem linesQuote_type (description : Option String) {name text : String} {ss : List String}
    (hname : Text.isPlainIdentifier name.toList = true) (htext : Quotes text ss) :
    LinesQuote (blockComment description ++ ["export type " ++ name ++ " = " ++ text ++ ";"]) ss := by
  have hcomment : LinesQuote (blockComment description) [] :=
    ⟨[], Lexis.lines_blockComment rfl (fun _ _ h => absurd h Bool.false_ne_true), rfl⟩
  have htype : lexis.Shut "export type " [word "export", word "type"] := shut_ofList rfl rfl
  have hequals : lexis.Shut " = " [mark '='] := shut_ofList rfl rfl
  have hend : lexis.Shut ";" [mark ';'] := shut_ofList rfl rfl
  have hfront := htype.enclose (reads_name hname) hequals
  have hline := Lexis.Shows.enclose hfront rfl htext hend rfl
  exact hcomment.append hline.lines

theorem name_eq_wire (hkeys : ∀ key id, names.NamesKey key id → id = key) {d : Declaration}
    (h : d.Shaped .typescript names) : ∀ f ∈ d.fields, f.name = f.wire := by
  cases h with
  | struct _ hfields => exact fun f hf => hkeys _ _ (hfields f hf).name
  | branch _ _ htag hfields =>
    exact List.forall_mem_cons.2 ⟨hkeys _ _ htag, fun f hf => hkeys _ _ (hfields f hf).name⟩
  | enum | union | synonym => simp [Declaration.fields]

/-- A declaration of the mapping has lines, where fields are called like their keys. -/
theorem exists_lines (htypes : ∀ id ∈ names.typeNames, Text.isPlainIdentifier id.toList = true)
    (hkeys : ∀ key id, names.NamesKey key id → id = key) {d : Declaration}
    (h : d.Shaped .typescript names) :
    ∃ lines, declarationLines d = .ok lines ∧ LinesQuote lines (strings d) := by
  have hname : Text.isPlainIdentifier d.name.toList = true := htypes _ h.name
  have hnames := name_eq_wire hkeys h
  cases h with
  | @struct header fields _ hfields additional =>
    exact exists_structLines htypes hname (fun f hf => ⟨hnames f hf, (hfields f hf).type⟩) none
      additional
  | @branch header fields b tagName _ hunion htag hfields additional =>
    have hformed : ∀ f ∈ b.field tagName :: fields, f.type.Formed .typescript (· ∈ names.typeNames) :=
      List.forall_mem_cons.2 ⟨.literal b.value, fun f hf => (hfields f hf).type⟩
    exact exists_structLines htypes hname (fun f hf => ⟨hnames f hf, hformed f hf⟩) (some b.union)
      additional
  | @enum header members _ hmembers _ =>
    have hvalues := quotes_intercalate fun (m : String × String) (_ : m ∈ members) =>
      quotes_quote m.2
    rw [← List.map_eq_flatMap] at hvalues
    exact ⟨_, rfl, linesQuote_type header.description hname hvalues⟩
  | @union header variants _ tagName tagWire hvariants _ =>
    have hbranches := quotes_intercalate fun (v : String × String) (hv : v ∈ variants) =>
      quotes_name (htypes _ (hvariants v hv))
    rw [List.flatMap_eq_nil_iff.2 fun _ _ => rfl] at hbranches
    exact ⟨_, rfl, linesQuote_type header.description hname hbranches⟩
  | @synonym header t _ ht =>
    obtain ⟨type, hrender, hquotes⟩ := exists_quotes_renderType ht htypes
    exact ⟨_, bind_eq_ok.2 ⟨type, hrender, rfl⟩,
      linesQuote_type header.description hname hquotes⟩

theorem exists_text (htypes : ∀ id ∈ names.typeNames, Text.isPlainIdentifier id.toList = true)
    (hkeys : ∀ key id, names.NamesKey key id → id = key) {d : Declaration}
    (h : d.Shaped .typescript names) (setting : Setting) :
    ∃ text, typescript.renderDeclaration setting d = .ok text ∧
      literals (lexis.lexemes text) = (strings d).map quotedBody := by
  obtain ⟨lines, hlines, ts, hall, hts⟩ := exists_lines htypes hkeys h
  refine ⟨layout lines, bind_eq_ok.2 ⟨lines, hlines, rfl⟩, ?_⟩
  rw [Lexis.lexemes_layout hall]
  exact hts

end

end Target.TypeScript

end Typegen
