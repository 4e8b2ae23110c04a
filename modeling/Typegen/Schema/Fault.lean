import Typegen.Json.Display
import Typegen.Schema.Form

/-!
# Faults of a schema

The ways in which a document can fail to be a schema, and how each is worded.
-/

namespace Typegen.Schema

/-- What is wrong with a schema document. -/
inductive Fault where
  | repeatedKey (key : List Json.Piece)
  | invalidJson (text : String)
  | notAnObject
  | definitionsNotAnObject
  | definitionsBelowRoot
  | severalForms (forms : List Form)
  | additionalWithoutProperties
  | mappingWithoutDiscriminator
  | unexpectedKeywords (keys : List String)
  | nullableNotBoolean
  | metadataNotAnObject
  | refNotAString
  | undefinedRef (name : String)
  | unknownType (value : Json)
  | enumNotStrings
  | enumEmpty
  | repeatedEnumValue (value : String)
  | propertiesNotAnObject
  | optionalPropertiesNotAnObject
  | keysInBoth (keys : List String)
  | additionalNotBoolean
  | discriminatorNotAString
  | mappingNotAnObject
  | mappingEmpty
  | branchNotProperties (value : String)
  | branchNullable (value : String)
  | branchRedeclaresTag (value tag : String)

/-- Strings as a message lists them. -/
def displayAll (keys : List String) : String := Json.commaSeparated (keys.map Text.display)

/-- The wording of a fault. -/
def Fault.message : Fault → String
  | repeatedKey key => "Duplicate object key " ++ Json.displayPieces key
  | invalidJson text => "Invalid JSON: " ++ text
  | notAnObject => "Schema must be a JSON object"
  | definitionsNotAnObject => "'definitions' must be an object"
  | definitionsBelowRoot => "'definitions' is only allowed at the root"
  | severalForms forms =>
    "Keywords of several forms used together (" ++ Json.commaSeparated (forms.map (·.label)) ++ ")"
  | additionalWithoutProperties =>
    "'additionalProperties' requires 'properties' or 'optionalProperties'"
  | mappingWithoutDiscriminator => "'mapping' requires 'discriminator'"
  | unexpectedKeywords keys => "Unexpected keyword(s) " ++ displayAll keys
  | nullableNotBoolean => "'nullable' must be a boolean"
  | metadataNotAnObject => "'metadata' must be an object"
  | refNotAString => "'ref' must be a string"
  | undefinedRef name => "Reference to undefined definition '" ++ name ++ "'"
  | unknownType value =>
    "Unknown type " ++ value.display ++ ", expected one of " ++
      Json.commaSeparated (Primitive.all.map (·.label))
  | enumNotStrings => "'enum' must be an array of strings"
  | enumEmpty => "'enum' must not be empty"
  | repeatedEnumValue value => "Duplicate enum value " ++ Text.display value
  | propertiesNotAnObject => "'properties' must be an object"
  | optionalPropertiesNotAnObject => "'optionalProperties' must be an object"
  | keysInBoth keys =>
    "Key(s) " ++ displayAll keys ++ " declared in both 'properties' and 'optionalProperties'"
  | additionalNotBoolean => "'additionalProperties' must be a boolean"
  | discriminatorNotAString => "'discriminator' must be a string"
  | mappingNotAnObject => "'discriminator' requires a 'mapping' object"
  | mappingEmpty => "'mapping' must not be empty"
  | branchNotProperties value =>
    "Discriminator branch " ++ Text.display value ++ " must be of the properties form"
  | branchNullable value => "Discriminator branch " ++ Text.display value ++ " must not be nullable"
  | branchRedeclaresTag value tag =>
    "Discriminator branch " ++ Text.display value ++ " redeclares the tag property " ++
      Text.display tag

end Typegen.Schema
