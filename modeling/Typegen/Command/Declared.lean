import Typegen.Command.Parameter
import Typegen.Text.Lowercase
import Typegen.Text.Name

/-!
# Declared parameters

An option is declared by its spellings.  A declaration without a dash gives the name under which the
value is kept; otherwise the name comes from the spelling with the most dashes.  Behind a slash
stands a spelling that switches the option off.  Declarations that contradict each other are
refused.
-/

namespace Typegen.Command

/-- What the declarations of an option give. -/
structure Spellings where
  /-- The name, if one of them gives it. -/
  name : Option String := none
  /-- The spellings that give the option. -/
  on : List String := []
  /-- The spellings that switch the option off. -/
  off : List String := []

/-- The failure of declarations that do not fit together. -/
def misdeclared (text : String) : Failure := .wrongType (.unusable text)

/-- What stands before and behind the first occurrence of a character. -/
def splitAtFirst? (mark : Char) (cs : List Char) : Option (List Char × List Char) :=
  let before := cs.takeWhile (· ≠ mark)
  match cs.drop before.length with
  | _ :: behind => some (before, behind)
  | [] => none

/-- The character that a spelling for "off" stands behind: a slash, unless the declaration begins
with one. -/
def offMark : List Char → Char
  | '/' :: _ => ';'
  | _ => '/'

/-- A spelling, unless it is empty. -/
def spelled (cs : List Char) : List String := if cs = [] then [] else [String.ofList cs]

namespace Spellings

/-- What declarations give together with one more. -/
def add (s : Spellings) (decl : String) : Except Failure Spellings :=
  let cs := decl.toList
  if Text.isName decl then
    match s.name with
    | some n => .error (misdeclared ("Name '" ++ n ++ "' defined twice"))
    | none => .ok { s with name := some decl }
  else
    match splitAtFirst? (offMark cs) cs with
    | none => .ok { s with on := s.on ++ [decl] }
    | some (before, behind) =>
      let on := Text.trimRight before
      let off := behind.dropWhile Text.isBlank
      if on = off then
        .error (.badOption ("Boolean option " ++ Text.display decl ++
          " cannot use the same flag for true/false."))
      else .ok { s with on := s.on ++ spelled on, off := s.off ++ spelled off }

/-- A spelling as its dashes and its name.  Any character but a letter or a number counts as a
dash. -/
def split : List Char → List Char × List Char
  | [] => ([], [])
  | c :: rest =>
    if Text.isLetter c || Text.isNumber c then ([], c :: rest)
    else
      match rest with
      | d :: more => if d = c then ([c, d], more) else ([c], rest)
      | [] => ([c], [])

/-- A name with underscores for dashes, in small letters. -/
def keptName (cs : List Char) : String :=
  Text.lowercase (String.ofList (cs.map fun c => if c = '-' then '_' else c))

/-- The name among spellings: that of the one with the most dashes, the first of several. -/
def nameAmong (spellings : List String) : String :=
  let parts := spellings.map fun s => split s.toList
  let most := (parts.map fun p => p.1.length).foldl max 0
  keptName ((parts.find? fun p => p.1.length = most).elim [] Prod.snd)

/-- The name under which the value of the option is kept. -/
def keptUnder (s : Spellings) : Except Failure String :=
  match s.name with
  | some n =>
    if s.on.isEmpty && s.off.isEmpty then
      .error (misdeclared ("No options defined but a name was passed (" ++ n ++ ")."))
    else .ok n
  | none =>
    let n := nameAmong s.on
    if Text.isName n then .ok n
    else .error (misdeclared "Could not determine name for option")

end Spellings

/-- The option with some declarations.  An option that can be switched off is a flag unless it is
said not to be.  Without a default, an option that is counted starts at zero and a flag is off. -/
def declaredOption (decls : List String) (isFlag : Option Bool) (isCount : Bool)
    (default : Option Json) : Except Failure Parameter := do
  let s ← decls.foldlM Spellings.add {}
  let name ← s.keptUnder
  let spelling := s.on.headD ("--" ++ name)
  if isFlag.getD !s.off.isEmpty then
    if isCount then .error (misdeclared "'count' is not valid with 'is_flag'.")
    else return .option name spelling .flag (default.getD (.bool false))
  else if !s.off.isEmpty then
    .error (misdeclared "Secondary flag is not valid for non-boolean flag.")
  else if isCount then return .option name spelling .count (default.getD (.int 0))
  else return .option name spelling .value (default.getD .null)

/-- The argument with a declared name. -/
def declaredArgument (decl : String) : Parameter := .argument (Spellings.keptName decl.toList)

end Typegen.Command
