import Typegen.Proofs.Candidates
import Typegen.Proofs.Expressions
import Typegen.Proofs.Formed
import Typegen.Target.Python.Decoder

/-!
# Decoders of fields

`LeadsTo` follows a type expression through arrays, maps, optional values and names for types, and
says which steps it takes and where it ends.  A name is followed once.  `decodeAlong` is what
decoding along such steps means: arrays item by item, maps value by value, null as it is, and at the
end a call of the class or of its decoding function.

The text that is generated for a field reads as one expression, a function (`reads_decoderText`,
`parses_decoderLexemes`).  Its variables are all different (`wellScoped_decoderExpr`), and what it
returns is what decoding along the steps gives (`eval_decoderExpr`).
-/

namespace Typegen

/-! ## Expressions and tables of declarations -/

/-- Every array, map and optional value inside an expression holds one expression. -/
def TypeExpr.WellFormed (t : TypeExpr) : Prop :=
  ∀ e ∈ t.walk, e.kind = .array ∨ e.kind = .map ∨ e.kind = .optional → e.args.length = 1

theorem TypeExpr.WellFormed.of_mem {t item : TypeExpr} (h : t.WellFormed) (hitem : item ∈ t.args) :
    item.WellFormed := by
  intro e he
  refine h e ?_
  rw [TypeExpr.walk_eq, TypeExpr.walkAll_eq]
  exact List.mem_cons_of_mem _ (List.mem_flatMap.2 ⟨item, hitem, he⟩)

theorem mem_byName {ds : List Declaration} {e : String × Declaration}
    (h : e ∈ Declaration.byName ds) : e.2 ∈ ds ∧ e.1 = e.2.name := by
  rcases Json.mem_foldl_setMember h with h | ⟨d, hd, rfl⟩
  · cases h
  · exact ⟨hd, rfl⟩

theorem nodup_byName (ds : List Declaration) : ((Declaration.byName ds).map Prod.fst).Nodup := by
  unfold Declaration.byName
  have hnil : (([] : List (String × Declaration)).map Prod.fst).Nodup := List.nodup_nil
  generalize ([] : List (String × Declaration)) = table at hnil
  induction ds generalizing table with
  | nil => exact hnil
  | cons d ds ih => exact ih _ (Json.nodup_setMember hnil d.name d)

namespace Target.Python

open Lexis (shut_ofList reads_name)
open Text (isPlainIdentifier isCapital isIdentifierTail)

/-! ## Where a type leads -/

/-- A step from a type towards what it is made of. -/
inductive Step where
  | each
  | values
  | orNone
  deriving DecidableEq, Repr

/-- Where the steps from a type end. -/
inductive Ending where
  /-- Where values are used as they are. -/
  | asIs
  | calls (c : Callable)
  /-- At an array, a map or an optional value that holds nothing. -/
  | nowhere
  deriving DecidableEq, Repr

/-- The steps from a type and their end, where the names in `seen` have been followed. -/
inductive LeadsTo (declared : Declared) : List String → TypeExpr → List Step → Ending → Prop
  | plain {seen : List String} {t : TypeExpr}
      (hkind : t.kind = .any ∨ t.kind = .primitive ∨ t.kind = .literal) :
      LeadsTo declared seen t [] .asIs
  | undeclared {seen : List String} {t : TypeExpr} (hkind : t.kind = .named)
      (hlookup : declared.lookup t.name = none) : LeadsTo declared seen t [] .asIs
  | again {seen : List String} {t target : TypeExpr} {h : Header} (hkind : t.kind = .named)
      (hlookup : declared.lookup t.name = some (.synonym h target)) (hseen : t.name ∈ seen) :
      LeadsTo declared seen t [] .asIs
  | struct {seen : List String} {t : TypeExpr} {d : Declaration} (hkind : t.kind = .named)
      (hlookup : declared.lookup t.name = some d) (hd : d.isStruct = true ∨ d.isUnion = true) :
      LeadsTo declared seen t [] (.calls (.fromDict t.name))
  | enum {seen : List String} {t : TypeExpr} {d : Declaration} (hkind : t.kind = .named)
      (hlookup : declared.lookup t.name = some d) (hd : d.isEnum = true) :
      LeadsTo declared seen t [] (.calls (.type t.name))
  | synonym {seen : List String} {t target : TypeExpr} {h : Header} {path : List Step}
      {ending : Ending} (hkind : t.kind = .named)
      (hlookup : declared.lookup t.name = some (.synonym h target)) (hseen : t.name ∉ seen)
      (hleads : LeadsTo declared (t.name :: seen) target path ending) :
      LeadsTo declared seen t path ending
  | array {seen : List String} {t item : TypeExpr} {rest : List TypeExpr} {path : List Step}
      {ending : Ending} (hkind : t.kind = .array) (hargs : t.args = item :: rest)
      (hleads : LeadsTo declared seen item path ending) :
      LeadsTo declared seen t (.each :: path) ending
  | map {seen : List String} {t item : TypeExpr} {rest : List TypeExpr} {path : List Step}
      {ending : Ending} (hkind : t.kind = .map) (hargs : t.args = item :: rest)
      (hleads : LeadsTo declared seen item path ending) :
      LeadsTo declared seen t (.values :: path) ending
  | optional {seen : List String} {t item : TypeExpr} {rest : List TypeExpr} {path : List Step}
      {ending : Ending} (hkind : t.kind = .optional) (hargs : t.args = item :: rest)
      (hleads : LeadsTo declared seen item path ending) :
      LeadsTo declared seen t (.orNone :: path) ending
  | empty {seen : List String} {t : TypeExpr}
      (hkind : t.kind = .array ∨ t.kind = .map ∨ t.kind = .optional) (hargs : t.args = []) :
      LeadsTo declared seen t [] .nowhere

/-- The names that have not been followed yet. -/
structure Unexpanded (declared : Declared) (seen unexpanded : List String) : Prop where
  nodup : unexpanded.Nodup
  mem_iff : ∀ name, name ∈ unexpanded ↔ name ∈ aliasNames declared ∧ name ∉ seen

variable {declared : Declared} {seen unexpanded : List String} {t target : TypeExpr} {name : String}

theorem mem_aliasNames {h : Header} (hlookup : declared.lookup name = some (.synonym h target)) :
    name ∈ aliasNames declared := by
  refine List.mem_map.2 ⟨(name, .synonym h target), List.mem_filter.2 ⟨?_, rfl⟩, rfl⟩
  exact mem_of_lookup hlookup

theorem Unexpanded.init (hdeclared : (declared.map Prod.fst).Nodup) :
    Unexpanded declared [] (aliasNames declared) where
  nodup := hdeclared.sublist (List.filter_sublist.map _)
  mem_iff := by simp

theorem Unexpanded.erase (h : Unexpanded declared seen unexpanded) (name : String) :
    Unexpanded declared (name :: seen) (unexpanded.erase name) where
  nodup := h.nodup.erase name
  mem_iff other := by
    rw [h.nodup.mem_erase_iff, h.mem_iff, List.mem_cons, not_or]
    constructor
    · rintro ⟨hne, hmem, hseen⟩
      exact ⟨hmem, hne, hseen⟩
    · rintro ⟨hmem, hne, hseen⟩
      exact ⟨hne, hmem, hseen⟩

/-- Every type leads somewhere. -/
theorem exists_leadsTo (h : Unexpanded declared seen unexpanded) (t : TypeExpr) (value : String)
    (depth : Nat) : ∃ path ending, LeadsTo declared seen t path ending := by
  -- The recursion of `decode` is the one that follows the type.
  fun_induction decode declared unexpanded t value depth generalizing seen with
  | case1 =>
    rename_i ih
    obtain ⟨path, ending, hleads⟩ := ih h
    exact ⟨_, _, .optional rfl rfl hleads⟩
  | case3 =>
    rename_i ih
    obtain ⟨path, ending, hleads⟩ := ih h
    exact ⟨_, _, .array rfl rfl hleads⟩
  | case5 =>
    rename_i ih
    obtain ⟨path, ending, hleads⟩ := ih h
    exact ⟨_, _, .map rfl rfl hleads⟩
  | case2 | case4 | case6 => exact ⟨_, _, .empty (by simp) rfl⟩
  | case7 _ _ _ _ _ _ _ _ _ _ _ _ _ _ hlookup | case8 _ _ _ _ _ _ _ _ _ _ _ _ _ _ hlookup =>
    exact ⟨_, _, .struct rfl hlookup (by simp [Declaration.isStruct, Declaration.isUnion])⟩
  | case9 _ _ _ _ _ _ _ _ _ _ _ _ hlookup => exact ⟨_, _, .enum rfl hlookup rfl⟩
  | case10 _ _ _ name _ _ _ _ _ _ _ _ hlookup hmem ih =>
    obtain ⟨path, ending, hleads⟩ := ih (h.erase name)
    exact ⟨_, _, .synonym rfl hlookup ((h.mem_iff name).1 hmem).2 hleads⟩
  | case11 _ _ _ name _ _ _ _ _ _ _ _ hlookup hmem =>
    refine ⟨_, _, .again rfl hlookup ?_⟩
    rw [h.mem_iff, not_and, Classical.not_not] at hmem
    exact hmem (mem_aliasNames hlookup)
  | case12 _ _ _ _ _ _ _ _ _ _ hlookup => exact ⟨_, _, .undeclared rfl hlookup⟩
  | case13 _ t _ _ hoptional harray hmap hnamed =>
    refine ⟨_, _, .plain ?_⟩
    obtain ⟨kind, name, args, absent, null, definition, byReference, notes⟩ := t
    cases kind with
    | any | primitive | literal => simp
    | optional => exact (hoptional _ _ _ _ _ _ _ rfl).elim
    | array => exact (harray _ _ _ _ _ _ _ rfl).elim
    | map => exact (hmap _ _ _ _ _ _ _ rfl).elim
    | named => exact (hnamed _ _ _ _ _ _ _ rfl).elim

/-! ## The text of a decoder -/

/-- The variable for the items of a container. -/
def itemName (depth : Nat) : String := s!"x{depth}"

/-- The variable for the keys of a map. -/
def keyName (depth : Nat) : String := s!"k{depth}"

/-- The call of a function with a variable. -/
def Callable.text (value : String) : Callable → String
  | .fromDict name => name ++ ".from_dict(" ++ value ++ ")"
  | .type name => name ++ "(" ++ value ++ ")"

/-- The text that decodes a variable along some steps. -/
def decoderText (c : Callable) : List Step → String → Nat → String
  | [], value, _ => c.text value
  | .orNone :: path, value, depth =>
    "None if " ++ value ++ " is None else " ++ decoderText c path value depth
  | .each :: path, value, depth =>
    "[" ++ decoderText c path (itemName depth) (depth + 1) ++ " for " ++ itemName depth ++ " in " ++
      value ++ "]"
  | .values :: path, value, depth =>
    "\x7b" ++ keyName depth ++ ": " ++ decoderText c path (itemName depth) (depth + 1) ++ " for " ++
      keyName depth ++ ", " ++ itemName depth ++ " in " ++ value ++ ".items()\x7d"

/-- What is generated for a type that leads somewhere. -/
def Ending.decoder (path : List Step) (value : String) (depth : Nat) :
    Ending → Except Failure (Option String)
  | .asIs => .ok none
  | .calls c => .ok (some (decoderText c path value depth))
  | .nowhere => .error .outOfRange

variable {path : List Step} {ending : Ending} {depth : Nat} {bound : List String} {c : Callable}

theorem LeadsTo.decode_eq (h : LeadsTo declared seen t path ending)
    (hunexpanded : Unexpanded declared seen unexpanded) (value : String) (depth : Nat) :
    decode declared unexpanded t value depth = ending.decoder path value depth := by
  induction h generalizing unexpanded value depth with
  | @plain _ t hkind =>
    obtain ⟨kind, name, args, absent, null, definition, byReference, notes⟩ := t
    rcases hkind with rfl | rfl | rfl <;> simp [decode, Ending.decoder]
  | @undeclared _ t hkind hlookup =>
    obtain ⟨kind, name, args, absent, null, definition, byReference, notes⟩ := t
    subst hkind
    rw [decode, hlookup]
    rfl
  | @again _ t _ _ hkind hlookup hseen =>
    obtain ⟨kind, name, args, absent, null, definition, byReference, notes⟩ := t
    subst hkind
    rw [decode, hlookup]
    exact if_neg fun hmem => ((hunexpanded.mem_iff _).1 hmem).2 hseen
  | @struct _ t d hkind hlookup hd =>
    obtain ⟨kind, name, args, absent, null, definition, byReference, notes⟩ := t
    subst hkind
    rw [decode, hlookup]
    cases d with
    | struct | union => rfl
    | enum | synonym => rcases hd with hd | hd <;> cases hd
  | @enum _ t d hkind hlookup hd =>
    obtain ⟨kind, name, args, absent, null, definition, byReference, notes⟩ := t
    subst hkind
    rw [decode, hlookup]
    cases d with
    | enum => rfl
    | struct | union | synonym => cases hd
  | @synonym _ t _ _ _ _ hkind hlookup hseen _ ih =>
    obtain ⟨kind, name, args, absent, null, definition, byReference, notes⟩ := t
    subst hkind
    rw [decode, hlookup]
    have hmem := (hunexpanded.mem_iff name).2 ⟨mem_aliasNames hlookup, hseen⟩
    exact (if_pos hmem).trans (ih (hunexpanded.erase name) value depth)
  | @array _ t _ _ _ ending hkind hargs _ ih | @map _ t _ _ _ ending hkind hargs _ ih
  | @optional _ t _ _ _ ending hkind hargs _ ih =>
    obtain ⟨kind, name, args, absent, null, definition, byReference, notes⟩ := t
    subst hkind hargs
    rw [decode]
    simp only [ih hunexpanded]
    cases ending <;> rfl
  | @empty _ t hkind hargs =>
    obtain ⟨kind, name, args, absent, null, definition, byReference, notes⟩ := t
    subst hargs
    rcases hkind with rfl | rfl | rfl <;> rw [decode] <;> rfl

/-! ## Names -/

/-- A name as the classes of a module have. -/
structure IsClassName (x : String) : Prop where
  plain : isPlainIdentifier x.toList = true
  head : x.toList.head?.any (fun c => isCapital c || c == '_') = true
  notKeyword : x ∉ keywords

/-- A name as the variables of a decoder have. -/
structure IsVariable (x : String) : Prop where
  plain : isPlainIdentifier x.toList = true
  head : x.toList.head?.any (fun c => isCapital c || c == '_') = false
  notKeyword : x ∉ keywords

theorem IsClassName.ne {x y : String} (hx : IsClassName x) (hy : IsVariable y) : x ≠ y := by
  rintro rfl
  exact Bool.false_ne_true (hy.head.symm.trans hx.head)

theorem toList_numbered (c : Char) (n : Nat) :
    (String.singleton c ++ toString n).toList = c :: Nat.toDigits 10 n := by
  rw [Nat.toString_eq_ofList_toDigits]
  simp

theorem isVariable_numbered {c : Char} (hc : c = 'k' ∨ c = 'x') (n : Nat) :
    IsVariable (String.singleton c ++ toString n) where
  plain := by
    rw [toList_numbered, isPlainIdentifier, Bool.and_eq_true, List.all_eq_true]
    refine ⟨by rcases hc with rfl | rfl <;> decide, fun d hd => ?_⟩
    have hdigit : Text.isDigit d = true := by
      simpa [Text.isDigit, Char.isDigit, Char.le_def] using
        Nat.isDigit_of_mem_toDigits (by decide) (by decide) hd
    simp [isIdentifierTail, hdigit]
  head := by
    rw [toList_numbered]
    rcases hc with rfl | rfl <;> rfl
  notKeyword hmem := by
    have hheads : keywords.all
        (fun w => w.toList.head? ≠ some 'k' ∧ w.toList.head? ≠ some 'x') = true := by
      decide
    have hhead := List.all_eq_true.1 hheads _ hmem
    rw [toList_numbered] at hhead
    rcases hc with rfl | rfl <;> simp at hhead

theorem isVariable_itemName (depth : Nat) : IsVariable (itemName depth) :=
  isVariable_numbered (.inr rfl) depth

theorem isVariable_keyName (depth : Nat) : IsVariable (keyName depth) :=
  isVariable_numbered (.inl rfl) depth

theorem isVariable_v : IsVariable "v" := ⟨by decide, by decide, by decide⟩

theorem numbered_inj {c d : Char} {m n : Nat}
    (h : String.singleton c ++ toString m = String.singleton d ++ toString n) : c = d ∧ m = n := by
  have hlists := congrArg String.toList h
  rw [toList_numbered, toList_numbered, List.cons.injEq] at hlists
  refine ⟨hlists.1, Naming.toString_injective ?_⟩
  rw [Nat.toString_eq_ofList_toDigits, hlists.2, Nat.toString_eq_ofList_toDigits]

theorem itemName_ne_keyName (m n : Nat) : itemName m ≠ keyName n := fun h =>
  absurd (numbered_inj (c := 'x') (d := 'k') h).1 (by decide)

/-! ## Reading a decoder -/

/-- The name of the class that is called. -/
def Callable.className : Callable → String
  | .fromDict name => name
  | .type name => name

/-- The lexemes of a call with a variable. -/
def Callable.lexemes (value : String) : Callable → List Lexeme
  | .fromDict name =>
    [.word name, .mark '.', .word "from_dict", .mark '(', .word value, .mark ')']
  | .type name => [.word name, .mark '(', .word value, .mark ')']

/-- The lexemes of the text that decodes a variable. -/
def decoderLexemes (c : Callable) : List Step → String → Nat → List Lexeme
  | [], value, _ => c.lexemes value
  | .orNone :: path, value, depth =>
    .word "None" :: .word "if" :: .word value :: .word "is" :: .word "None" :: .word "else" ::
      decoderLexemes c path value depth
  | .each :: path, value, depth =>
    .mark '[' :: (decoderLexemes c path (itemName depth) (depth + 1) ++
      [.word "for", .word (itemName depth), .word "in", .word value, .mark ']'])
  | .values :: path, value, depth =>
    .mark '\x7b' :: .word (keyName depth) :: .mark ':' ::
      (decoderLexemes c path (itemName depth) (depth + 1) ++
        [.word "for", .word (keyName depth), .mark ',', .word (itemName depth), .word "in",
          .word value, .mark '.', .word "items", .mark '(', .mark ')', .mark '\x7d'])

/-- The expression of a call with a variable. -/
def Callable.expr (value : String) : Callable → Expr
  | .fromDict name => .apply (.member (.name name) "from_dict") (.name value)
  | .type name => .apply (.name name) (.name value)

/-- The expression that decodes a variable along some steps. -/
def decoderExpr (c : Callable) : List Step → String → Nat → Expr
  | [], value, _ => c.expr value
  | .orNone :: path, value, depth =>
    .conditional .none (.isNone (.name value)) (decoderExpr c path value depth)
  | .each :: path, value, depth =>
    .listFor (decoderExpr c path (itemName depth) (depth + 1)) (itemName depth) (.name value)
  | .values :: path, value, depth =>
    .dictFor (.name (keyName depth)) (decoderExpr c path (itemName depth) (depth + 1))
      (keyName depth) (itemName depth) (.invoke (.member (.name value) "items"))

section Reading

variable {c : Callable} {path : List Step} {value : String} {depth : Nat}

theorem reads_callable (hc : IsClassName c.className) (hvalue : IsVariable value) :
    lexis.Reads (c.text value) (c.lexemes value) := by
  have hvalue : lexis.Reads value [.word value] := reads_name hvalue.plain
  have hclose : lexis.Shut ")" [.mark ')'] := shut_ofList rfl rfl
  cases c with
  | fromDict name =>
    have hname : lexis.Reads name [.word name] := reads_name hc.plain
    have hopen : lexis.Shut ".from_dict(" [.mark '.', .word "from_dict", .mark '('] :=
      shut_ofList rfl rfl
    exact (((hname.append_shut hopen).append_reads hvalue).append_shut hclose).reads
  | type name =>
    have hname : lexis.Reads name [.word name] := reads_name hc.plain
    have hopen : lexis.Shut "(" [.mark '('] := shut_ofList rfl rfl
    exact (((hname.append_shut hopen).append_reads hvalue).append_shut hclose).reads

theorem reads_decoderText (hc : IsClassName c.className) (hvalue : IsVariable value) :
    lexis.Reads (decoderText c path value depth) (decoderLexemes c path value depth) := by
  induction path generalizing value depth with
  | nil => exact reads_callable hc hvalue
  | cons step path ih =>
    have hname : ∀ {x : String}, IsVariable x → lexis.Reads x [.word x] := fun h =>
      reads_name h.plain
    have hitem := hname (isVariable_itemName depth)
    have hkey := hname (isVariable_keyName depth)
    have hfor : lexis.Shut " for " [.word "for"] := shut_ofList rfl rfl
    have hin : lexis.Shut " in " [.word "in"] := shut_ofList rfl rfl
    have hinner : lexis.Reads (decoderText c path (itemName depth) (depth + 1)) _ :=
      ih (isVariable_itemName depth)
    cases step with
    | orNone =>
      have hif : lexis.Shut "None if " [.word "None", .word "if"] := shut_ofList rfl rfl
      have helse : lexis.Shut " is None else " [.word "is", .word "None", .word "else"] :=
        shut_ofList rfl rfl
      exact ((hif.append_reads (hname hvalue)).append_shut helse).append_reads (ih hvalue)
    | each =>
      have hopen : lexis.Shut "[" [.mark '['] := shut_ofList rfl rfl
      have hclose : lexis.Shut "]" [.mark ']'] := shut_ofList rfl rfl
      have hbody := hopen.append_reads hinner
      have hloop := ((hbody.append_shut hfor).append_reads hitem).append_shut hin
      have hwhole := (hloop.append_reads (hname hvalue)).append_shut hclose
      exact hwhole.reads.of_eq (by simp [decoderLexemes])
    | values =>
      have hopen : lexis.Shut "\x7b" [.mark '\x7b'] := shut_ofList rfl rfl
      have hcolon : lexis.Shut ": " [.mark ':'] := shut_ofList rfl rfl
      have hcomma : lexis.Shut ", " [.mark ','] := shut_ofList rfl rfl
      have hclose : lexis.Shut ".items()\x7d"
          [.mark '.', .word "items", .mark '(', .mark ')', .mark '\x7d'] :=
        shut_ofList rfl rfl
      have hbody := ((hopen.append_reads hkey).append_shut hcolon).append_reads hinner
      have hkeys := ((hbody.append_shut hfor).append_reads hkey).append_shut hcomma
      have hloop := (hkeys.append_reads hitem).append_shut hin
      have hwhole := (hloop.append_reads (hname hvalue)).append_shut hclose
      exact hwhole.reads.of_eq (by simp [decoderLexemes])

theorem parses_name {x : String} (hx : x ∉ keywords) : Parses .comparison [.word x] (.name x) :=
  .plain (.name hx)

theorem parses_callable (hc : IsClassName c.className) (hvalue : IsVariable value) :
    Parses .primary (c.lexemes value) (c.expr value) := by
  have hargument : Parses .expression [.word value] (.name value) :=
    .single (parses_name hvalue.notKeyword)
  cases c with
  | fromDict name =>
    have hfunction : Parses .primary [.word name] (.name name) := .name hc.notKeyword
    exact (hfunction.member (by decide : "from_dict" ∉ keywords)).apply hargument
  | type name =>
    have hfunction : Parses .primary [.word name] (.name name) := .name hc.notKeyword
    exact hfunction.apply hargument

theorem parses_decoderLexemes (hc : IsClassName c.className) (hvalue : IsVariable value) :
    Parses .expression (decoderLexemes c path value depth) (decoderExpr c path value depth) := by
  induction path generalizing value depth with
  | nil => exact .single (.plain (parses_callable hc hvalue))
  | cons step path ih =>
    have hitem := (isVariable_itemName depth).notKeyword
    have hkey := (isVariable_keyName depth).notKeyword
    have hinner : Parses .expression (decoderLexemes c path (itemName depth) (depth + 1)) _ :=
      ih (isVariable_itemName depth)
    have hvalue' : Parses .primary [.word value] (.name value) := .name hvalue.notKeyword
    cases step with
    | orNone => exact .conditional (.plain .none) (.isNone hvalue') (ih hvalue)
    | each => exact .single (.plain (.listFor hinner hitem (.plain hvalue')))
    | values =>
      have hsource := (hvalue'.member (by decide : "items" ∉ keywords)).invoke
      exact .single (.plain (.dictFor (.single (parses_name hkey)) hinner hkey hitem (.plain hsource)))

end Reading

/-! ## Scopes -/

/-- No variable of a container at some depth or deeper is in use. -/
def Fresh (depth : Nat) (bound : List String) : Prop :=
  ∀ n, depth ≤ n → itemName n ∉ bound ∧ keyName n ∉ bound

theorem Fresh.mono {bound' : List String} (h : Fresh depth bound) (hsubset : bound' ⊆ bound) :
    Fresh depth bound' := fun n hn =>
  ⟨fun hmem => (h n hn).1 (hsubset hmem), fun hmem => (h n hn).2 (hsubset hmem)⟩

theorem Fresh.next (h : Fresh depth bound) :
    Fresh (depth + 1) (itemName depth :: keyName depth :: bound) := by
  intro n hn
  have hold := h n (by omega)
  have hitem : itemName n ≠ itemName depth := fun heq => by
    have := (numbered_inj (c := 'x') (d := 'x') heq).2
    omega
  have hkey : keyName n ≠ keyName depth := fun heq => by
    have := (numbered_inj (c := 'k') (d := 'k') heq).2
    omega
  simp [hold, hitem, hkey, itemName_ne_keyName, (itemName_ne_keyName depth n).symm]

theorem wellScoped_decoderExpr {value : String} {classes : List String}
    (hclasses : ∀ x ∈ classes, IsClassName x) (hc : c.className ∈ classes) (hvalue : value ∈ bound)
    (hbound : Fresh depth bound) : WellScoped classes bound (decoderExpr c path value depth) := by
  have hvariable : ∀ {x : String}, IsVariable x → x ∉ classes := fun hx hmem =>
    (hclasses _ hmem).ne hx rfl
  induction path generalizing value depth bound with
  | nil =>
    have hname : WellScoped classes bound (.name c.className) := .name (List.mem_append_right _ hc)
    have hargument : WellScoped classes bound (.name value) := .name (List.mem_append_left _ hvalue)
    cases c with
    | fromDict => exact .apply (.member hname) hargument
    | type => exact .apply hname hargument
  | cons step path ih =>
    have hsource : WellScoped classes bound (.name value) := .name (List.mem_append_left _ hvalue)
    have hitem := hvariable (isVariable_itemName depth)
    have hkey := hvariable (isVariable_keyName depth)
    have hfresh := hbound depth (Nat.le_refl depth)
    cases step with
    | orNone => exact .conditional .none (.isNone hsource) (ih hvalue hbound)
    | each =>
      have hinner : Fresh (depth + 1) (itemName depth :: bound) :=
        hbound.next.mono (List.cons_subset_cons _ (List.subset_cons_self _ _))
      exact .listFor (by simp [hfresh.1, hitem]) (ih List.mem_cons_self hinner) hsource
    | values =>
      refine .dictFor (by simp [hfresh.2, hkey]) ?_ (.name (by simp))
        (ih List.mem_cons_self hbound.next) (.invoke (.member hsource))
      simp [hfresh.1, hitem, itemName_ne_keyName]

/-! ## Decoding -/

section Decoding

variable {α : Type}

/-- What decoding a value along some steps means. -/
def decodeAlong (call : Callable → Value α → Except Raised (Value α)) (c : Callable) :
    List Step → Json → Except Raised (Value α)
  | [], j => call c (.data j)
  | .orNone :: path, j =>
    match j with
    | .null => .ok (.data .null)
    | j => decodeAlong call c path j
  | .each :: path, j => do return .list (← (← elements j).mapM (decodeAlong call c path))
  | .values :: path, j =>
    match j with
    | .object members => do
      return .dict (← members.mapM fun m => do return (m.1, ← decodeAlong call c path m.2))
    | _ => .error .attributeError

variable {j : Json} {c : Callable}

theorem distinct_of_elements {v : Json} {items : List Json} (hj : j.Distinct)
    (h : elements j = .ok items) (hv : v ∈ items) : v.Distinct := by
  cases j with
  | array =>
    cases h
    exact Json.distinct_array_iff.1 hj v hv
  | string | object =>
    cases h
    obtain ⟨_, -, rfl⟩ := List.mem_map.1 hv
    exact .string _
  | _ => cases h

theorem lookup_className {env : List (String × Value α)} (hc : IsClassName c.className)
    (henv : ∀ e ∈ env, IsVariable e.1) : env.lookup c.className = none := by
  rw [List.lookup_eq_none_iff]
  intro e he
  simpa using hc.ne (henv e he)

theorem eval_callable (s : Scope α) {value : String} {env : List (String × Value α)}
    (hname : IsClassName c.className) (hc : c.className ∈ s.classes)
    (henv : ∀ e ∈ env, IsVariable e.1) (hvalue : env.lookup value = some (.data j)) :
    s.eval env (c.expr value) = s.call c (.data j) := by
  have hclass : s.valueOf env c.className = .ok (.callable (.type c.className)) := by
    simp [Scope.valueOf, lookup_className hname henv, hc]
  have hargument : s.valueOf env value = .ok (.data j) := by
    simp [Scope.valueOf, hvalue]
  cases c with
  | fromDict name | type name =>
    simp only [Callable.expr, Scope.eval, hargument]
    rw [show s.valueOf env name = _ from hclass]
    rfl

theorem map_fst_of_mapM {f : Json → Except Raised (Value α)} {members : List (String × Json)}
    {r : List (String × Value α)}
    (h : members.mapM (fun m => do return (m.1, ← f m.2)) = .ok r) :
    r.map Prod.fst = members.map Prod.fst :=
  map_eq_of_forall₂ (mapM_eq_ok.1 h) fun _ _ hm => (bind_mk_eq_ok.1 hm).1

/-- What the members of a dictionary come to, key by key. -/
theorem eval_dictFor (s : Scope α) {env : List (String × Value α)} {source item : Expr}
    {k x : String} {members : List (String × Json)} {f : Json → Except Raised (Value α)}
    (hsource : s.eval env source = .ok (.pairs (members.map fun m => (m.1, .data m.2))))
    (hkx : k ≠ x) (hkeys : (Json.keys members).Nodup)
    (hitem : ∀ m ∈ members,
      s.eval ((x, .data m.2) :: (k, .data (.string m.1)) :: env) item = f m.2) :
    s.eval env (.dictFor (.name k) item k x source) = do
      return .dict (← members.mapM fun m => do return (m.1, ← f m.2)) := by
  have hmembers : (members.mapM fun m => do
      let inner := (x, Value.data m.2) :: (k, .data (.string m.1)) :: env
      return (← (← s.valueOf inner k).asKey, ← s.eval inner item)) =
      members.mapM fun m => do return (m.1, ← f m.2) := by
    refine mapM_congr fun m hm => ?_
    have hkey : s.valueOf ((x, .data m.2) :: (k, .data (.string m.1)) :: env) k =
        .ok (.data (.string m.1)) := by
      simp [Scope.valueOf, lookup_cons_eq, hkx]
    simp only [hkey, hitem m hm]
    rfl
  rw [Scope.eval, hsource]
  simp only [ok_bind, Value.elements, List.map_map, List.mapM_map, Scope.eval]
  refine (congrArg (· >>= _) hmembers).trans ?_
  cases hrun : members.mapM fun m => do return (m.1, ← f m.2) with
  | error e => rfl
  | ok r =>
    rw [ok_bind, ok_bind, Json.foldl_setMember [] r (map_fst_of_mapM hrun ▸ hkeys)]
    rfl

theorem eval_decoderExpr (s : Scope α) {path : List Step} {value : String} {depth : Nat}
    {env : List (String × Value α)} (hname : IsClassName c.className) (hc : c.className ∈ s.classes)
    (henv : ∀ e ∈ env, IsVariable e.1) (hvalue : env.lookup value = some (.data j))
    (hj : j.Distinct) :
    s.eval env (decoderExpr c path value depth) = decodeAlong s.call c path j := by
  induction path generalizing value depth j env with
  | nil => exact eval_callable s hname hc henv hvalue
  | cons step path ih =>
    have hsource : s.valueOf env value = .ok (.data j) := by
      simp [Scope.valueOf, hvalue]
    have hitem := isVariable_itemName depth
    have hkey := isVariable_keyName depth
    cases step with
    | orNone =>
      simp only [decoderExpr, Scope.eval, hsource, ih henv hvalue hj]
      cases j <;> rfl
    | each =>
      simp only [decoderExpr, Scope.eval, hsource, decodeAlong, ok_bind, Value.elements]
      cases helements : elements j with
      | error e => rfl
      | ok items =>
        simp only [ok_bind, pure_bind, List.mapM_map]
        congr 1
        refine mapM_congr fun v hv => ?_
        exact ih (List.forall_mem_cons.2 ⟨hitem, henv⟩) List.lookup_cons_self
          (distinct_of_elements hj helements hv)
    | values =>
      cases j with
      | object members =>
        rw [Json.distinct_object_iff] at hj
        refine eval_dictFor s ?_ (itemName_ne_keyName depth depth).symm hj.1 fun m hm => ?_
        · simp only [Scope.eval, hsource]
          rfl
        · exact ih (List.forall_mem_cons.2 ⟨hitem, List.forall_mem_cons.2 ⟨hkey, henv⟩⟩)
            List.lookup_cons_self (hj.2 m hm)
      | _ =>
        simp only [decoderExpr, Scope.eval, hsource]
        rfl

end Decoding

/-! ## Fields -/

/-- The names of the classes among the declarations. -/
def classNames (declared : Declared) : List String :=
  (declared.filter fun e => !e.2.isAlias).map Prod.fst

/-- Whether a type mentions a union or a name for a type. -/
def MentionsOpaque (declared : Declared) (t : TypeExpr) : Prop :=
  ∃ e ∈ t.walk, e.kind = .named ∧
    ∃ d, declared.lookup e.name = some d ∧ (d.isUnion = true ∨ d.isAlias = true)

/-- A text that reads as a function, in which no variable hides another one, and that function
decodes along some steps. -/
def DecodesAlong (classes : List String) (c : Callable) (path : List Step) (text : String) : Prop :=
  ∃ e, (∀ e', Parses .expression (lexis.lexemes text) e' ↔ e' = e) ∧ WellScoped classes [] e ∧
    ∀ (α : Type) (call : Callable → Value α → Except Raised (Value α)) (j : Json), j.Distinct →
      Scope.applied ⟨classes, call⟩ e (.data j) = decodeAlong call c path j

theorem LeadsTo.ne_nowhere (h : LeadsTo declared seen t path ending) (ht : t.WellFormed)
    (htargets : ∀ name header target, declared.lookup name = some (.synonym header target) →
      target.WellFormed) : ending ≠ .nowhere := by
  induction h with
  | plain | undeclared | again | struct | enum => simp
  | synonym _ hlookup _ _ ih => exact ih (htargets _ _ _ hlookup)
  | array _ hargs _ ih | map _ hargs _ ih | optional _ hargs _ ih =>
    exact ih (ht.of_mem (by simp [hargs]))
  | @empty _ t hkind hargs =>
    have hlength := ht t (by rw [TypeExpr.walk_eq]; exact List.mem_cons_self) hkind
    simp [hargs] at hlength

theorem LeadsTo.className_mem (h : LeadsTo declared seen t path ending)
    (hending : ending = .calls c) : c.className ∈ classNames declared := by
  induction h with
  | plain | undeclared | again | empty => cases hending
  | synonym _ _ _ _ ih | array _ _ _ ih | map _ _ _ ih | optional _ _ _ ih => exact ih hending
  | @struct _ t d _ hlookup hd =>
    cases hending
    refine List.mem_map.2 ⟨(t.name, d), List.mem_filter.2 ⟨mem_of_lookup hlookup, ?_⟩, rfl⟩
    cases d <;> simp_all [Declaration.isAlias, Declaration.isStruct, Declaration.isUnion]
  | @enum _ t d _ hlookup hd =>
    cases hending
    refine List.mem_map.2 ⟨(t.name, d), List.mem_filter.2 ⟨mem_of_lookup hlookup, ?_⟩, rfl⟩
    cases d <;> simp_all [Declaration.isAlias, Declaration.isEnum]

theorem fresh_v : Fresh 0 ["v"] := by
  intro n _
  have hitem : (itemName n).toList = 'x' :: Nat.toDigits 10 n := toList_numbered 'x' n
  have hkey : (keyName n).toList = 'k' :: Nat.toDigits 10 n := toList_numbered 'k' n
  constructor
  · intro hmem
    have hlists := congrArg String.toList (List.mem_singleton.1 hmem)
    simp [hitem] at hlists
  · intro hmem
    have hlists := congrArg String.toList (List.mem_singleton.1 hmem)
    simp [hkey] at hlists

theorem decodesAlong_decoderText {classes : List String} (hclasses : ∀ x ∈ classes, IsClassName x)
    (hc : c.className ∈ classes) :
    DecodesAlong classes c path ("lambda v: " ++ decoderText c path "v" 0) := by
  have hname := hclasses _ hc
  have hlambda : lexis.Shut "lambda v: " [.word "lambda", .word "v", .mark ':'] :=
    shut_ofList rfl rfl
  have hlexemes : lexis.lexemes ("lambda v: " ++ decoderText c path "v" 0) =
      .word "lambda" :: .word "v" :: .mark ':' :: decoderLexemes c path "v" 0 :=
    congrArg Prod.fst (hlambda.append_reads (reads_decoderText hname isVariable_v)).line
  have hparses : Parses .expression
      (.word "lambda" :: .word "v" :: .mark ':' :: decoderLexemes c path "v" 0)
      (.lambda "v" (decoderExpr c path "v" 0)) :=
    .lambda isVariable_v.notKeyword (parses_decoderLexemes hname isVariable_v)
  refine ⟨.lambda "v" (decoderExpr c path "v" 0), fun e' => ?_, ?_, fun α call j hj => ?_⟩
  · rw [hlexemes]
    refine ⟨fun h => h.unique hparses, ?_⟩
    rintro rfl
    exact hparses
  · refine .lambda ?_ (wellScoped_decoderExpr hclasses hc (by simp) fresh_v)
    exact fun hmem => (hclasses _ (by simpa using hmem)).ne isVariable_v rfl
  · exact eval_decoderExpr ⟨classes, call⟩ hname hc (by simpa using isVariable_v)
      List.lookup_cons_self hj

theorem isOpaqueName_iff : isOpaqueName declared name = true ↔
    ∃ d, declared.lookup name = some d ∧ (d.isUnion = true ∨ d.isAlias = true) := by
  unfold isOpaqueName
  cases declared.lookup name with
  | none => simp
  | some d => simp

theorem mentionsOpaque_iff : MentionsOpaque declared t ↔
    (t.walk.any fun e => e.kind = .named && isOpaqueName declared e.name) = true := by
  simp only [List.any_eq_true, Bool.and_eq_true, decide_eq_true_eq, isOpaqueName_iff]
  rfl

/-- What is generated for a field whose type leads somewhere. -/
theorem fieldDecoder_eq {f : Field} (hdeclared : (declared.map Prod.fst).Nodup)
    (hmentions : MentionsOpaque declared f.type) (hleads : LeadsTo declared [] f.type path ending) :
    fieldDecoder declared f =
      (ending.decoder path "v" 0).map (Option.map ("lambda v: " ++ ·)) := by
  rw [fieldDecoder, if_pos (mentionsOpaque_iff.1 hmentions),
    hleads.decode_eq (.init hdeclared) "v" 0]
  rfl

theorem fieldDecoder_of_not_mentions {f : Field} (h : ¬ MentionsOpaque declared f.type) :
    fieldDecoder declared f = .ok none := by
  rw [fieldDecoder, if_neg fun hany => h (mentionsOpaque_iff.2 hany)]

/-- A field gets a decoder exactly if its type mentions a union or a name for a type and leads to a
class.  The decoder is a function that decodes along the steps from the type to that class. -/
theorem fieldDecoder_decodes (ds : List Declaration) (f : Field)
    (hnames : ∀ d ∈ ds, IsClassName d.name) (hformed : f.type.WellFormed) :
    (fieldDecoder (Declaration.byName ds) f = .ok none ↔
      ¬ MentionsOpaque (Declaration.byName ds) f.type ∨
        ∃ path, LeadsTo (Declaration.byName ds) [] f.type path .asIs) ∧
    (∀ path c, MentionsOpaque (Declaration.byName ds) f.type →
      LeadsTo (Declaration.byName ds) [] f.type path (.calls c) →
      ∃ text, fieldDecoder (Declaration.byName ds) f = .ok (some text) ∧
        DecodesAlong (classNames (Declaration.byName ds)) c path text) ∧
    -- Nothing else happens, unless a name stands for an expression that is not well formed.
    (fieldDecoder (Declaration.byName ds) f ≠ .ok none →
      (∃ path c, LeadsTo (Declaration.byName ds) [] f.type path (.calls c)) ∨
        ∃ header target, .synonym header target ∈ ds ∧ ¬ target.WellFormed) := by
  have hclasses : ∀ x ∈ classNames (Declaration.byName ds), IsClassName x := by
    intro x hx
    obtain ⟨e, he, rfl⟩ := List.mem_map.1 hx
    obtain ⟨hmem, hname⟩ := mem_byName (List.mem_of_mem_filter he)
    rw [hname]
    exact hnames _ hmem
  have hnodup := nodup_byName ds
  by_cases hmentions : MentionsOpaque (Declaration.byName ds) f.type
  · have hresult : ∀ path ending, LeadsTo (Declaration.byName ds) [] f.type path ending → _ :=
      fun path ending h => fieldDecoder_eq hnodup hmentions h
    obtain ⟨path, ending, hleads⟩ := exists_leadsTo (.init hnodup) f.type "v" 0
    refine ⟨⟨fun h => .inr ⟨path, ?_⟩, ?_⟩, fun path c _ h => ?_, fun hne => ?_⟩
    · cases ending with
      | asIs => exact hleads
      | calls | nowhere => cases (hresult _ _ hleads).symm.trans h
    · rintro (h | ⟨path', h⟩)
      · exact absurd hmentions h
      · exact hresult _ _ h
    · exact ⟨_, hresult _ _ h, decodesAlong_decoderText hclasses (h.className_mem rfl)⟩
    · cases ending with
      | asIs => exact absurd (hresult _ _ hleads) hne
      | calls c => exact .inl ⟨path, c, hleads⟩
      | nowhere =>
        by_contra hno
        refine hleads.ne_nowhere hformed (fun name header target hlookup => ?_) rfl
        by_contra hill
        exact hno (.inr ⟨header, target, (mem_byName (mem_of_lookup hlookup)).1, hill⟩)
  · rw [fieldDecoder_of_not_mentions hmentions]
    exact ⟨⟨fun _ => .inl hmentions, fun _ => rfl⟩, fun _ _ h => absurd h hmentions,
      fun h => absurd rfl h⟩

/-- Rows of cells that may be missing, and rows of rows without an end. -/
def rowDeclarations : List Declaration :=
  [.union { name := "Cell" } "kind" "kind" [("text", "TextCell")],
    .struct { name := "TextCell" } [] (some "Cell") true,
    .synonym { name := "Row" }
      (.array (.withOptionality (.named "Cell") false true)),
    .synonym { name := "_Rows" } (.array (.named "_Rows"))]

/-- A table of rows is decoded cell by cell, and rows without an end are used as they are. -/
theorem fieldDecoder_decodes_rows :
    (∃ text, fieldDecoder (Declaration.byName rowDeclarations)
        { name := "table", wire := "table", type := .map (.named "Row") } = .ok (some text) ∧
      DecodesAlong ["Cell", "TextCell"] (.fromDict "Cell") [.values, .each, .orNone] text) ∧
    fieldDecoder (Declaration.byName rowDeclarations)
        { name := "rows", wire := "rows", type := .named "_Rows" } = .ok none := by
  have hnames : ∀ d ∈ rowDeclarations, IsClassName d.name := by
    have hone : ∀ d ∈ rowDeclarations, isPlainIdentifier d.name.toList = true ∧
        d.name.toList.head?.any (fun c => isCapital c || c == '_') = true ∧
        d.name ∉ keywords := by
      decide
    exact fun d hd => ⟨(hone d hd).1, (hone d hd).2.1, (hone d hd).2.2⟩
  have hrow : (Declaration.byName rowDeclarations).lookup "Row" = some (.synonym { name := "Row" }
      (.array (.withOptionality (.named "Cell") false true))) := rfl
  have hrows : (Declaration.byName rowDeclarations).lookup "_Rows" =
      some (.synonym { name := "_Rows" } (.array (.named "_Rows"))) := rfl
  have hcell : (Declaration.byName rowDeclarations).lookup "Cell" =
      some (.union { name := "Cell" } "kind" "kind" [("text", "TextCell")]) := rfl
  have hmentions : MentionsOpaque (Declaration.byName rowDeclarations) (.map (.named "Row")) := by
    refine ⟨.named "Row", ?_, rfl, _, hrow, .inr rfl⟩
    simp [TypeExpr.walk_eq, TypeExpr.walkAll_eq, TypeExpr.map, TypeExpr.named]
  constructor
  · refine (fieldDecoder_decodes rowDeclarations _ hnames ?_).2.1 _ _ hmentions ?_
    · simp [TypeExpr.WellFormed, TypeExpr.walk_eq, TypeExpr.walkAll_eq, TypeExpr.map,
        TypeExpr.named]
    · exact .map rfl rfl (.synonym rfl hrow (by simp) (.array rfl rfl (.optional rfl rfl
        (.struct rfl hcell (.inr rfl)))))
  · refine (fieldDecoder_decodes rowDeclarations _ hnames ?_).1.2 (.inr ⟨_, .synonym rfl hrows
      (by simp) (.array rfl rfl (.again rfl hrows (by simp [TypeExpr.named])))⟩)
    simp [TypeExpr.WellFormed, TypeExpr.walk_eq, TypeExpr.walkAll_eq, TypeExpr.named]

end Target.Python

end Typegen
