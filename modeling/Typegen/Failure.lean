import Typegen.Report

/-!
# Failures

Everything that can stop an operation.  Besides reports there are the faults of an option whose
value has the wrong type: options come from configuration files and are used as they are, so such a
fault shows only where the value is used.
-/

namespace Typegen

/-- The name of the type of a value, as messages use it. -/
def Json.typeName : Json → String
  | .null => "NoneType"
  | .bool _ => "bool"
  | .int _ => "int"
  | .float _ => "float"
  | .string _ => "str"
  | .array _ => "list"
  | .object _ => "dict"

/-- A value was used in a way that its type does not allow. -/
inductive TypeFault where
  /-- A length limit is not a whole number. -/
  | notALength
  /-- A value other than a text was put behind a text. -/
  | appended (value : Json)
  /-- A value other than a text was put in front of a text. -/
  | prepended (value : Json)
  /-- A list of texts has a value of another type at an index. -/
  | notAText (index : Nat) (value : Json)
  /-- A value that cannot be used as such: no list, no key, not comparable, not callable. -/
  | unusable (text : String)

/-- The wording of a type fault. -/
def TypeFault.message : TypeFault → String
  | notALength => "slice indices must be integers or None or have an __index__ method"
  | appended value => "can only concatenate str (not \"" ++ value.typeName ++ "\") to str"
  | prepended (.array _) => "can only concatenate list (not \"str\") to list"
  | prepended value => "unsupported operand type(s) for +: '" ++ value.typeName ++ "' and 'str'"
  | notAText index value =>
    s!"sequence item {index}: expected str instance, " ++ value.typeName ++ " found"
  | unusable text => text

/-- Why an operation stopped. -/
inductive Failure where
  /-- An error of the user's schema or request. -/
  | report (r : Report)
  /-- An option that does not exist or has no such value, or an integer that is too long. -/
  | badOption (text : String)
  /-- A JSON text that cannot be read. -/
  | malformedJson (text : String)
  /-- Bytes or escapes that are no Unicode text. -/
  | undecodable
  /-- Nothing is stored under a key. -/
  | missingKey (key : String)
  /-- A value of the wrong type. -/
  | wrongType (fault : TypeFault)
  /-- A value of the wrong type was asked for a part that its type does not have. -/
  | noSuchMember (value : Json) (member : String)
  /-- An option is absent from settings that were replaced. -/
  | absentOption (name : String)
  /-- A list is too short. -/
  | outOfRange
  /-- A number is too large to count with. -/
  | tooLarge
  /-- A result is too long to be held in memory. -/
  | outOfMemory
  /-- An output file exists. -/
  | fileExists (path : String)
  /-- Something else stands where a directory is needed. -/
  | obstructed (path : String)
  /-- A directory stands where a file is needed. -/
  | isDirectory
  /-- A file is used as a directory. -/
  | notDirectory
  /-- There is no such file. -/
  | noSuchFile
  /-- A name or a path is longer than the system allows. -/
  | nameTooLong
  /-- A path for a file ends in no name. -/
  | unnamed
  /-- A file name is not valid. -/
  | badFileName (text : String)

namespace Failure

/-- A failure in words. -/
def message : Failure → String
  | report r => r.message
  | badOption text => text
  | malformedJson text => text
  | undecodable => "invalid bytes"
  | missingKey key => Text.display key
  | wrongType fault => fault.message
  | noSuchMember value member =>
    "'" ++ value.typeName ++ "' object has no attribute '" ++ member ++ "'"
  | absentOption name => "settings have no option '" ++ name ++ "'"
  | outOfRange => "tuple index out of range"
  | tooLarge => "cannot fit 'int' into an index-sized integer"
  | outOfMemory => ""
  | fileExists path =>
    "Output file already exists: " ++ path ++ ". Use --force to overwrite."
  | obstructed path => "[Errno 17] File exists: " ++ Text.display path
  | isDirectory => "Is a directory"
  | notDirectory => "Not a directory"
  | noSuchFile => "No such file or directory"
  | nameTooLong => "File name too long"
  | unnamed => "Device or resource busy"
  | badFileName text => text

/-- The failure of a report about a schema. -/
def ofSchema (fault : Schema.Fault) (context : Context := {}) : Failure :=
  .report ⟨.schema fault, context⟩

end Failure

end Typegen
