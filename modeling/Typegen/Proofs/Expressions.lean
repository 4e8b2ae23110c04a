import Typegen.Json.Basic
import Typegen.Proofs.Lexis
import Typegen.Target.Python.Words

/-!
# Expressions as Python reads them

`Parses` is the part of the grammar of expressions that decoding functions are written in: names,
attributes, calls, comprehensions, a test for `None`, conditional expressions and functions of one
argument.  Lexemes have at most one tree (`Parses.unique`); `Finds` reads from the left, as far as it
goes, and finds whatever the grammar derives.

`Scope.eval` is what an expression comes to.  The loop variables of a comprehension are in scope in its
item and nowhere else.  `WellScoped` says in addition that no variable hides another one.
-/

namespace Typegen.Target.Python

/-- How code is split into lexemes. -/
def lexis : Lexis where
  hashComments := true
  longTexts := true

/-- An expression. -/
inductive Expr where
  | none
  | name (x : String)
  | member (object : Expr) (x : String)
  /-- A call without an argument. -/
  | invoke (function : Expr)
  /-- A call with one argument. -/
  | apply (function argument : Expr)
  | isNone (e : Expr)
  | conditional (yes test no : Expr)
  /-- A list of items for each value that a source gives. -/
  | listFor (item : Expr) (x : String) (source : Expr)
  /-- A dictionary of keys and items for each pair that a source gives. -/
  | dictFor (key item : Expr) (k x : String) (source : Expr)
  | lambda (x : String) (body : Expr)
  deriving DecidableEq, Repr

/-! ## The grammar -/

/-- How tightly an expression holds together. -/
inductive Level where
  | primary
  | comparison
  | expression
  deriving DecidableEq, Repr

/-- The grammar of expressions. -/
inductive Parses : Level → List Lexeme → Expr → Prop
  | none : Parses .primary [.word "None"] .none
  | name {x : String} (h : x ∉ keywords) : Parses .primary [.word x] (.name x)
  | group {ts : List Lexeme} {e : Expr} (h : Parses .expression ts e) :
      Parses .primary (.mark '(' :: (ts ++ [.mark ')'])) e
  | member {ts : List Lexeme} {e : Expr} {x : String} (h : Parses .primary ts e)
      (hx : x ∉ keywords) : Parses .primary (ts ++ [.mark '.', .word x]) (.member e x)
  | invoke {ts : List Lexeme} {f : Expr} (h : Parses .primary ts f) :
      Parses .primary (ts ++ [.mark '(', .mark ')']) (.invoke f)
  | apply {ts us : List Lexeme} {f a : Expr} (h : Parses .primary ts f)
      (h' : Parses .expression us a) :
      Parses .primary (ts ++ .mark '(' :: (us ++ [.mark ')'])) (.apply f a)
  | listFor {ts us : List Lexeme} {item source : Expr} {x : String}
      (h : Parses .expression ts item) (hx : x ∉ keywords) (h' : Parses .comparison us source) :
      Parses .primary
        (.mark '[' :: (ts ++ .word "for" :: .word x :: .word "in" :: (us ++ [.mark ']'])))
        (.listFor item x source)
  | dictFor {ts us vs : List Lexeme} {key item source : Expr} {k x : String}
      (h : Parses .expression ts key) (h' : Parses .expression us item) (hk : k ∉ keywords)
      (hx : x ∉ keywords) (h'' : Parses .comparison vs source) :
      Parses .primary
        (.mark '\x7b' :: (ts ++ .mark ':' :: (us ++ .word "for" :: .word k :: .mark ',' ::
          .word x :: .word "in" :: (vs ++ [.mark '\x7d']))))
        (.dictFor key item k x source)
  | plain {ts : List Lexeme} {e : Expr} (h : Parses .primary ts e) : Parses .comparison ts e
  | isNone {ts : List Lexeme} {e : Expr} (h : Parses .primary ts e) :
      Parses .comparison (ts ++ [.word "is", .word "None"]) (.isNone e)
  | single {ts : List Lexeme} {e : Expr} (h : Parses .comparison ts e) : Parses .expression ts e
  | conditional {ts us vs : List Lexeme} {yes test no : Expr} (h : Parses .comparison ts yes)
      (h' : Parses .comparison us test) (h'' : Parses .expression vs no) :
      Parses .expression (ts ++ .word "if" :: (us ++ .word "else" :: vs))
        (.conditional yes test no)
  | lambda {ts : List Lexeme} {x : String} {body : Expr} (hx : x ∉ keywords)
      (h : Parses .expression ts body) :
      Parses .expression (.word "lambda" :: .word x :: .mark ':' :: ts) (.lambda x body)

/-! ## Reading from the left -/

/-- What is read next: an expression of some level, or what continues the one that has been read so
far. -/
inductive Goal where
  | expr (level : Level)
  | trailers (sofar : Expr)
  | test (sofar : Expr)
  | alternative (sofar : Expr)

/-- The lexemes that continue an expression of the tightest level. -/
def trailerMarks : List (Option Lexeme) := [some (.mark '.'), some (.mark '(')]

/-- Reading from the left, as far as it goes: what is found and the lexemes behind it. -/
inductive Finds : Goal → List Lexeme → Expr → List Lexeme → Prop
  | none {ts rest : List Lexeme} {e : Expr} (h : Finds (.trailers .none) ts e rest) :
      Finds (.expr .primary) (.word "None" :: ts) e rest
  | name {ts rest : List Lexeme} {e : Expr} {x : String} (hx : x ∉ keywords)
      (h : Finds (.trailers (.name x)) ts e rest) :
      Finds (.expr .primary) (.word x :: ts) e rest
  | group {ts us rest : List Lexeme} {e inner : Expr}
      (h : Finds (.expr .expression) ts inner (.mark ')' :: us))
      (h' : Finds (.trailers inner) us e rest) :
      Finds (.expr .primary) (.mark '(' :: ts) e rest
  | listFor {ts us vs rest : List Lexeme} {item source e : Expr} {x : String}
      (h : Finds (.expr .expression) ts item (.word "for" :: .word x :: .word "in" :: us))
      (h' : Finds (.expr .comparison) us source (.mark ']' :: vs))
      (h'' : Finds (.trailers (.listFor item x source)) vs e rest) :
      Finds (.expr .primary) (.mark '[' :: ts) e rest
  | dictFor {ts us vs ws rest : List Lexeme} {key item source e : Expr} {k x : String}
      (hkey : Finds (.expr .expression) ts key (.mark ':' :: us))
      (hitem : Finds (.expr .expression) us item
        (.word "for" :: .word k :: .mark ',' :: .word x :: .word "in" :: vs))
      (hsource : Finds (.expr .comparison) vs source (.mark '\x7d' :: ws))
      (h : Finds (.trailers (.dictFor key item k x source)) ws e rest) :
      Finds (.expr .primary) (.mark '\x7b' :: ts) e rest
  | member {ts rest : List Lexeme} {sofar e : Expr} {x : String}
      (h : Finds (.trailers (.member sofar x)) ts e rest) :
      Finds (.trailers sofar) (.mark '.' :: .word x :: ts) e rest
  | invoke {ts rest : List Lexeme} {sofar e : Expr}
      (h : Finds (.trailers (.invoke sofar)) ts e rest) :
      Finds (.trailers sofar) (.mark '(' :: .mark ')' :: ts) e rest
  | apply {ts us rest : List Lexeme} {sofar a e : Expr} (hts : ts.head? ≠ some (.mark ')'))
      (h : Finds (.expr .expression) ts a (.mark ')' :: us))
      (h' : Finds (.trailers (.apply sofar a)) us e rest) :
      Finds (.trailers sofar) (.mark '(' :: ts) e rest
  | noTrailer {ts : List Lexeme} {e : Expr} (h : ts.head? ∉ trailerMarks) :
      Finds (.trailers e) ts e ts
  | comparison {ts us rest : List Lexeme} {e whole : Expr}
      (h : Finds (.expr .primary) ts e us) (h' : Finds (.test e) us whole rest) :
      Finds (.expr .comparison) ts whole rest
  | isNone {ts : List Lexeme} {sofar : Expr} :
      Finds (.test sofar) (.word "is" :: .word "None" :: ts) (.isNone sofar) ts
  | noTest {ts : List Lexeme} {e : Expr} (h : ts.head? ≠ some (.word "is")) :
      Finds (.test e) ts e ts
  | expression {ts us rest : List Lexeme} {e whole : Expr}
      (hts : ts.head? ≠ some (.word "lambda"))
      (h : Finds (.expr .comparison) ts e us) (h' : Finds (.alternative e) us whole rest) :
      Finds (.expr .expression) ts whole rest
  | conditional {ts us rest : List Lexeme} {sofar test no : Expr}
      (h : Finds (.expr .comparison) ts test (.word "else" :: us))
      (h' : Finds (.expr .expression) us no rest) :
      Finds (.alternative sofar) (.word "if" :: ts) (.conditional sofar test no) rest
  | noAlternative {ts : List Lexeme} {e : Expr} (h : ts.head? ≠ some (.word "if")) :
      Finds (.alternative e) ts e ts
  | lambda {ts rest : List Lexeme} {x : String} {body : Expr}
      (h : Finds (.expr .expression) ts body rest) :
      Finds (.expr .expression) (.word "lambda" :: .word x :: .mark ':' :: ts) (.lambda x body) rest

variable {ts : List Lexeme} {e : Expr}

/-- Reading from the left leaves no choice. -/
theorem Finds.unique {goal : Goal} {rest rest' : List Lexeme} {e' : Expr} (h : Finds goal ts e rest)
    (h' : Finds goal ts e' rest') : e = e' ∧ rest = rest' := by
  have hnone : "None" ∈ keywords := by decide
  induction h generalizing e' rest' with
  | none _ ih =>
    cases h' with
    | none h => exact ih h
    | name hx => exact absurd hnone hx
  | name hx _ ih =>
    cases h' with
    | none => exact absurd hnone hx
    | name _ h => exact ih h
  | group _ _ ih ih' =>
    cases h' with
    | group h h' =>
      obtain ⟨rfl, hrest⟩ := ih h
      obtain rfl := (List.cons.inj hrest).2
      exact ih' h'
  | listFor _ _ _ ih ih' ih'' =>
    cases h' with
    | listFor h h' h'' =>
      obtain ⟨rfl, hrest⟩ := ih h
      simp only [List.cons.injEq, Lexeme.word.injEq, true_and] at hrest
      obtain ⟨rfl, rfl⟩ := hrest
      obtain ⟨rfl, hrest⟩ := ih' h'
      obtain rfl := (List.cons.inj hrest).2
      exact ih'' h''
  | dictFor _ _ _ _ ihkey ihitem ihsource ih =>
    cases h' with
    | dictFor hkey hitem hsource h =>
      obtain ⟨rfl, hrest⟩ := ihkey hkey
      obtain rfl := (List.cons.inj hrest).2
      obtain ⟨rfl, hrest⟩ := ihitem hitem
      simp only [List.cons.injEq, Lexeme.word.injEq, true_and] at hrest
      obtain ⟨rfl, rfl, rfl⟩ := hrest
      obtain ⟨rfl, hrest⟩ := ihsource hsource
      obtain rfl := (List.cons.inj hrest).2
      exact ih h
  | member _ ih =>
    cases h' with
    | member h => exact ih h
    | noTrailer h => exact absurd (by simp [trailerMarks]) h
  | invoke _ ih =>
    cases h' with
    | invoke h => exact ih h
    | apply hts => exact absurd rfl hts
    | noTrailer h => exact absurd (by simp [trailerMarks]) h
  | apply hts _ _ ih ih' =>
    cases h' with
    | invoke => exact absurd rfl hts
    | apply _ h h' =>
      obtain ⟨rfl, hrest⟩ := ih h
      obtain rfl := (List.cons.inj hrest).2
      exact ih' h'
    | noTrailer h => exact absurd (by simp [trailerMarks]) h
  | noTrailer h =>
    cases h' with
    | member => exact absurd (by simp [trailerMarks]) h
    | invoke => exact absurd (by simp [trailerMarks]) h
    | apply => exact absurd (by simp [trailerMarks]) h
    | noTrailer => exact ⟨rfl, rfl⟩
  | comparison _ _ ih ih' =>
    cases h' with
    | comparison h h' =>
      obtain ⟨rfl, rfl⟩ := ih h
      exact ih' h'
  | isNone =>
    cases h' with
    | isNone => exact ⟨rfl, rfl⟩
    | noTest h => exact absurd rfl h
  | noTest h =>
    cases h' with
    | isNone => exact absurd rfl h
    | noTest => exact ⟨rfl, rfl⟩
  | expression hts _ _ ih ih' =>
    cases h' with
    | expression _ h h' =>
      obtain ⟨rfl, rfl⟩ := ih h
      exact ih' h'
    | lambda => exact absurd rfl hts
  | conditional _ _ ih ih' =>
    cases h' with
    | conditional h h' =>
      obtain ⟨rfl, hrest⟩ := ih h
      obtain rfl := (List.cons.inj hrest).2
      obtain ⟨rfl, rfl⟩ := ih' h'
      exact ⟨rfl, rfl⟩
    | noAlternative h => exact absurd rfl h
  | noAlternative h =>
    cases h' with
    | conditional => exact absurd rfl h
    | noAlternative => exact ⟨rfl, rfl⟩
  | lambda _ ih =>
    cases h' with
    | expression hts => exact absurd rfl hts
    | lambda h =>
      obtain ⟨rfl, rfl⟩ := ih h
      exact ⟨rfl, rfl⟩

/-- The lexemes that continue an expression. -/
def Level.continuations : Level → List (Option Lexeme)
  | .primary => trailerMarks
  | .comparison => trailerMarks ++ [some (.word "is")]
  | .expression => trailerMarks ++ [some (.word "is"), some (.word "if")]

/-- An expression of some level that begins a list of lexemes is read from the left. -/
def Level.Found : Level → List Lexeme → Expr → Prop
  | .primary, ts, e => ∀ rest whole left, Finds (.trailers e) rest whole left →
      Finds (.expr .primary) (ts ++ rest) whole left
  | level, ts, e => ∀ rest, rest.head? ∉ level.continuations →
      Finds (.expr level) (ts ++ rest) e rest

/-- What expressions begin with. -/
theorem Parses.head {level : Level} (h : Parses level ts e) :
    ∃ t us, ts = t :: us ∧ t ≠ .mark ')' ∧ (level ≠ .expression → t ≠ .word "lambda") := by
  have hlambda : "lambda" ∈ keywords := by decide
  induction h with
  | none => exact ⟨_, _, rfl, by simp, by simp⟩
  | name hx =>
    refine ⟨_, _, rfl, by simp, fun _ heq => hx ?_⟩
    rwa [Lexeme.word.inj heq]
  | group | listFor | dictFor => exact ⟨_, _, rfl, by simp, by simp⟩
  | member _ _ ih | invoke _ ih | apply _ _ ih | plain _ ih | isNone _ ih =>
    obtain ⟨t, us, rfl, hparen, hword⟩ := ih
    exact ⟨t, _, rfl, hparen, fun _ => hword (by simp)⟩
  | single _ ih | conditional _ _ _ ih =>
    obtain ⟨t, us, rfl, hparen, -⟩ := ih
    exact ⟨t, _, rfl, hparen, fun h => absurd rfl h⟩
  | lambda => exact ⟨_, _, rfl, by simp, fun h => absurd rfl h⟩

theorem Parses.found {level : Level} (h : Parses level ts e) : level.Found ts e := by
  induction h with
  | none => exact fun rest whole left hmore => .none hmore
  | name hx => exact fun rest whole left hmore => .name hx hmore
  | group _ ih =>
    intro rest whole left hmore
    have hinner := ih (.mark ')' :: rest) (by simp [Level.continuations, trailerMarks])
    simpa using Finds.group hinner hmore
  | member _ _ ih =>
    intro rest whole left hmore
    simpa using ih _ _ _ (.member hmore)
  | invoke _ ih =>
    intro rest whole left hmore
    simpa using ih _ _ _ (.invoke hmore)
  | apply _ hargument ih ih' =>
    intro rest whole left hmore
    have hinner := ih' (.mark ')' :: rest) (by simp [Level.continuations, trailerMarks])
    obtain ⟨t, us, rfl, hparen, -⟩ := hargument.head
    simpa using ih _ _ _ (.apply (by simpa using hparen) hinner hmore)
  | @listFor ts us _ _ x _ _ _ ih ih' =>
    intro rest whole left hmore
    have hitem := ih (.word "for" :: .word x :: .word "in" :: (us ++ .mark ']' :: rest))
      (by simp [Level.continuations, trailerMarks])
    have hsource := ih' (.mark ']' :: rest) (by simp [Level.continuations, trailerMarks])
    simpa using Finds.listFor hitem hsource hmore
  | @dictFor ts us vs _ _ _ k x _ _ _ _ _ ih ih' ih'' =>
    intro rest whole left hmore
    have hkey := ih (.mark ':' :: (us ++ .word "for" :: .word k :: .mark ',' :: .word x ::
      .word "in" :: (vs ++ .mark '\x7d' :: rest))) (by simp [Level.continuations, trailerMarks])
    have hitem := ih' (.word "for" :: .word k :: .mark ',' :: .word x :: .word "in" ::
      (vs ++ .mark '\x7d' :: rest)) (by simp [Level.continuations, trailerMarks])
    have hsource := ih'' (.mark '\x7d' :: rest) (by simp [Level.continuations, trailerMarks])
    simpa using Finds.dictFor hkey hitem hsource hmore
  | plain _ ih =>
    intro rest hrest
    rw [Level.continuations, List.mem_append, not_or] at hrest
    exact .comparison (ih _ _ _ (.noTrailer hrest.1)) (.noTest (by simpa using hrest.2))
  | isNone _ ih =>
    intro rest hrest
    have hfront := ih (.word "is" :: .word "None" :: rest) _ _ (.noTrailer (by simp [trailerMarks]))
    simpa using Finds.comparison hfront .isNone
  | @single ts _ hts ih =>
    intro rest hrest
    obtain ⟨t, us, rfl, -, hword⟩ := hts.head
    have hfront := ih rest (by simp_all [Level.continuations])
    exact .expression (by simpa using hword (by simp)) hfront
      (.noAlternative (by simp_all [Level.continuations]))
  | @conditional ts us vs _ _ _ hts _ _ ih ih' ih'' =>
    intro rest hrest
    have hyes := ih (.word "if" :: (us ++ .word "else" :: (vs ++ rest)))
      (by simp [Level.continuations, trailerMarks])
    have htest := ih' (.word "else" :: (vs ++ rest)) (by simp [Level.continuations, trailerMarks])
    obtain ⟨t, front, rfl, -, hword⟩ := hts.head
    have hwhole := Finds.expression (by simpa using hword (by simp)) hyes
      (.conditional htest (ih'' rest hrest))
    simpa using hwhole
  | lambda _ _ ih => exact fun rest hrest => .lambda (ih rest hrest)

/-- Lexemes are read as at most one expression. -/
theorem Parses.unique {e' : Expr} (h : Parses .expression ts e) (h' : Parses .expression ts e') :
    e = e' :=
  ((h.found [] (by simp [Level.continuations, trailerMarks])).unique
    (h'.found [] (by simp [Level.continuations, trailerMarks]))).1

/-! ## Values -/

/-- A function that the module gives: a class, or the decoding function of one. -/
inductive Callable where
  | type (name : String)
  | fromDict (name : String)
  deriving DecidableEq, Repr

/-- A value, where `α` has the objects of the module's classes. -/
inductive Value (α : Type) where
  /-- A value as it is read from JSON. -/
  | data (j : Json)
  | made (a : α)
  | list (items : List (Value α))
  | dict (members : List (String × Value α))
  /-- The method of a dictionary that gives its members. -/
  | items (members : List (String × Value α))
  /-- The members of a dictionary. -/
  | pairs (members : List (String × Value α))
  | pair (key : String) (value : Value α)
  | callable (c : Callable)

/-- Why an expression comes to nothing. -/
inductive Raised where
  | nameError (x : String)
  | typeError
  | attributeError
  | valueError
  /-- Something that a class raises. -/
  | own (message : String)
  /-- What the rules below leave open. -/
  | unknown
  deriving DecidableEq, Repr

/-- The values that a loop over a JSON value goes through. -/
def elements : Json → Except Raised (List Json)
  | .array items => .ok items
  | .string s => .ok (s.toList.map fun c => .string (String.singleton c))
  | .object members => .ok (members.map fun m => .string m.1)
  | _ => .error .typeError

namespace Value

variable {α : Type}

/-- The values that a loop goes through. -/
def elements : Value α → Except Raised (List (Value α))
  | .data j => do return (← Python.elements j).map .data
  | .list values => .ok values
  | .dict members => .ok (members.map fun m => .data (.string m.1))
  | .pairs members => .ok (members.map fun m => .pair m.1 m.2)
  | .pair key value => .ok [.data (.string key), value]
  | _ => .error .unknown

/-- The two values that a value is unpacked into. -/
def unpack (v : Value α) : Except Raised (Value α × Value α) := do
  match ← v.elements with
  | [a, b] => return (a, b)
  | _ => .error .valueError

/-- Whether a value counts as true. -/
def truth : Value α → Except Raised Bool
  | .data j => .ok j.isTruthy
  | .list values => .ok !values.isEmpty
  | .dict members => .ok !members.isEmpty
  | _ => .error .unknown

def isNone : Value α → Bool
  | .data .null => true
  | _ => false

/-- An attribute of a value. -/
def attr : Value α → String → Except Raised (Value α)
  | .callable (.type name), "from_dict" => .ok (.callable (.fromDict name))
  | .data (.object members), "items" => .ok (.items (members.map fun m => (m.1, .data m.2)))
  | .dict members, "items" => .ok (.items members)
  | .data _, "items" => .error .attributeError
  | _, _ => .error .unknown

/-- A call without an argument. -/
def invoke : Value α → Except Raised (Value α)
  | .items members => .ok (.pairs members)
  | _ => .error .unknown

/-- A value as the key of a dictionary.  Only strings are covered. -/
def asKey : Value α → Except Raised String
  | .data (.string key) => .ok key
  | _ => .error .unknown

end Value

/-! ## Evaluation -/

/-- The module that an expression stands in. -/
structure Scope (α : Type) where
  /-- The names of the classes. -/
  classes : List String
  /-- What calling a class or its decoding function gives. -/
  call : Callable → Value α → Except Raised (Value α)

namespace Scope

variable {α : Type}

/-- The value of a name: that of the innermost variable of that name, or else a class. -/
def valueOf (s : Scope α) (env : List (String × Value α)) (x : String) :
    Except Raised (Value α) :=
  match env.lookup x with
  | some v => .ok v
  | none => if x ∈ s.classes then .ok (.callable (.type x)) else .error (.nameError x)

/-- A call with one argument. -/
def apply (s : Scope α) : Value α → Value α → Except Raised (Value α)
  | .callable c, v => s.call c v
  | _, _ => .error .unknown

/-- What an expression comes to, where `env` has the variables in scope. -/
def eval (s : Scope α) (env : List (String × Value α)) : Expr → Except Raised (Value α)
  | .none => .ok (.data .null)
  | .name x => s.valueOf env x
  | .member e x => do (← s.eval env e).attr x
  | .invoke f => do (← s.eval env f).invoke
  | .apply f a => do
    let function ← s.eval env f
    s.apply function (← s.eval env a)
  | .isNone e => do return .data (.bool (← s.eval env e).isNone)
  | .conditional yes test no => do
    if ← (← s.eval env test).truth then s.eval env yes else s.eval env no
  | .listFor item x source => do
    let elements ← (← s.eval env source).elements
    return .list (← elements.mapM fun v => s.eval ((x, v) :: env) item)
  | .dictFor key item k x source => do
    let elements ← (← s.eval env source).elements
    let members ← elements.mapM fun v => do
      let (a, b) ← v.unpack
      let inner := (x, b) :: (k, a) :: env
      return (← (← s.eval inner key).asKey, ← s.eval inner item)
    return .dict (members.foldl (fun table m => Json.setMember m.1 m.2 table) [])
  | .lambda _ _ => .error .unknown

/-- What the function that an expression stands for returns. -/
def applied (s : Scope α) (e : Expr) (v : Value α) : Except Raised (Value α) :=
  match e with
  | .lambda x body => s.eval [(x, v)] body
  | _ => .error .unknown

end Scope

/-- Every name is that of a variable in scope or of a class, and no variable hides another one or a
class. -/
inductive WellScoped (classes : List String) : List String → Expr → Prop
  | none {bound : List String} : WellScoped classes bound .none
  | name {bound : List String} {x : String} (hx : x ∈ bound ++ classes) :
      WellScoped classes bound (.name x)
  | member {bound : List String} {e : Expr} {x : String} (h : WellScoped classes bound e) :
      WellScoped classes bound (.member e x)
  | invoke {bound : List String} {f : Expr} (h : WellScoped classes bound f) :
      WellScoped classes bound (.invoke f)
  | apply {bound : List String} {f a : Expr} (h : WellScoped classes bound f)
      (h' : WellScoped classes bound a) : WellScoped classes bound (.apply f a)
  | isNone {bound : List String} {e : Expr} (h : WellScoped classes bound e) :
      WellScoped classes bound (.isNone e)
  | conditional {bound : List String} {yes test no : Expr} (h : WellScoped classes bound yes)
      (h' : WellScoped classes bound test) (h'' : WellScoped classes bound no) :
      WellScoped classes bound (.conditional yes test no)
  | listFor {bound : List String} {item source : Expr} {x : String} (hx : x ∉ bound ++ classes)
      (h : WellScoped classes (x :: bound) item) (h' : WellScoped classes bound source) :
      WellScoped classes bound (.listFor item x source)
  | dictFor {bound : List String} {key item source : Expr} {k x : String}
      (hk : k ∉ bound ++ classes) (hx : x ∉ k :: bound ++ classes)
      (h : WellScoped classes (x :: k :: bound) key)
      (h' : WellScoped classes (x :: k :: bound) item) (h'' : WellScoped classes bound source) :
      WellScoped classes bound (.dictFor key item k x source)
  | lambda {bound : List String} {x : String} {body : Expr} (hx : x ∉ bound ++ classes)
      (h : WellScoped classes (x :: bound) body) : WellScoped classes bound (.lambda x body)

end Typegen.Target.Python
