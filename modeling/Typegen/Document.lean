import Typegen.Failure
import Typegen.Json.Position
import Typegen.Json.Encoding

/-!
# Documents

The value of a JSON text.  A schema must not repeat a key in an object; everywhere else a repeated
key keeps its first place and its last value.  `parseRaw` and `loadRaw` keep what escapes spell;
what is generated from a document is told only for one whose strings are Unicode texts (`parse` and
`load`).
-/

namespace Typegen

open Json (Raw)

namespace Document

/-- The outcome of reading a text, with a wording for what is misspelled. -/
def report (misspelled : String → Failure) (text : List Char) :
    Except Json.Fault Raw → Except Failure Raw
  | .ok v => .ok v
  | .error (.repeatedKey key) => .error (.ofSchema (.repeatedKey key))
  | .error (.malformed (.longInteger excess) _) =>
    .error (.badOption (Json.Problem.longInteger excess).text)
  | .error (.malformed problem left) => .error (misspelled (problem.placed left text))

/-- A misspelled schema document. -/
def invalid (text : String) : Failure := .ofSchema (.invalidJson text)

/-- The value that a text spells, repeated keys being allowed. -/
def parseRaw (text : String) : Except Failure Raw :=
  report .malformedJson text.toList (Json.read Json.lastWins text)

/-- The schema document that a text spells, repeated keys being refused. -/
def loadRaw (text : String) : Except Failure Raw :=
  report invalid text.toList (Json.read Json.noRepeats text)

/-- A value with Unicode texts for strings. -/
def unicode (v : Raw) : Except Failure Json :=
  match Json.ofRaw? v with
  | some v => .ok v
  | none => .error .undecodable

end Document

/-- The value that some characters spell, with Unicode texts for strings. -/
def Json.readChars (close : Closing) (cs : List Char) : Except Failure Json :=
  Document.report Document.invalid cs (readRaw close cs) >>= Document.unicode

namespace Document

/-- The value that a Unicode text spells, repeated keys being allowed. -/
def parse (text : String) : Except Failure Json := parseRaw text >>= unicode

/-- The schema document that a Unicode text spells, repeated keys being refused. -/
def load (text : String) : Except Failure Json := loadRaw text >>= unicode

/-- The schema document that some bytes spell, repeated keys being refused. -/
def loadBytes (bytes : List UInt8) : Except Failure Json :=
  match Json.decode? bytes with
  | none => .error .undecodable
  | some text => Json.readChars Json.noRepeats text.toList

end Document

end Typegen
