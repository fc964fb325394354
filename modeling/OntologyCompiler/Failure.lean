import OntologyCompiler.Json.Basic
import OntologyCompiler.Version.Fault

/-!
# Failures

Everything that stops the compiler, as causes. Validation problems and diagnostics are not failures.
-/

namespace OntologyCompiler

/-- The parts of a definition that a structural fault can name. -/
inductive SchemaPart where
  | property
  | propertyName
  | propertyType
  | cardinality
  | constraint
  | constraintProperty
  | constraintKind
  | decoding
  | decodingProperty
  | decodingRule
  | decodingType
  | member
  | memberName
  deriving DecidableEq, Repr, Inhabited

/-- The part in words. -/
def SchemaPart.text : SchemaPart → String
  | .property => "property"
  | .propertyName => "property name"
  | .propertyType => "property type"
  | .cardinality => "cardinality"
  | .constraint => "constraint"
  | .constraintProperty => "constraint property"
  | .constraintKind => "constraint kind"
  | .decoding => "decoding"
  | .decodingProperty => "decoding property"
  | .decodingRule => "decoding rule"
  | .decodingType => "decoding type"
  | .member => "member"
  | .memberName => "member name"

/-- Why a definition has no place in an ontology. -/
inductive StructureFault where
  | definedTwice
  | bodyNotObject
  | notTuple (part : SchemaPart)
  | wrongArity (part : SchemaPart) (found least most : Nat)
  | notText (part : SchemaPart)
  | reservedProperty (name : String)
  | unknownCardinality (encoding : String)
  | propertyTwice
  | notList (key : String)
  | memberShape
  | memberTwice
  /-- A writer would not take an emission. -/
  | refused
  deriving DecidableEq, Repr, Inhabited

/-- The cardinality message, which is also a failure of its own. -/
def unknownCardinalityText (encoding : String) : String := "Invalid cardinality: " ++ encoding

/-- The fault in words. -/
def StructureFault.message : StructureFault → String
  | .definedTwice => "type defined twice"
  | .bodyNotObject => "factory body is not an object"
  | .notTuple part => part.text ++ " entry is not a tuple"
  | .wrongArity part found least most =>
    part.text ++ " entry has " ++ found.repr ++ " element(s), expected " ++
      (if least = most then least.repr else least.repr ++ "-" ++ most.repr)
  | .notText part => part.text ++ " is not a string"
  | .reservedProperty name => "'" ++ name ++ "' is a reserved property name"
  | .unknownCardinality encoding => unknownCardinalityText encoding
  | .propertyTwice => "property declared twice"
  | .notList key => "'" ++ key ++ "' is not a list"
  | .memberShape => "enum member is neither a string nor a tuple"
  | .memberTwice => "enum member declared twice"
  | .refused => "refused"

/-- A failure of the compiler. -/
inductive CompileError where
  | invalidStructure (entity : String) (fault : StructureFault)
  | unresolvedReferences (count : Nat)
  | unsupportedLanguage (language : String)
  | schemaNotFound (name directory : String)
  | versionNotFound (name version : String)
  | invalidCardinality (encoding : String)
  | invalidVersion (fault : VersionFault)
  | json (failure : ReadFailure)
  /-- The file system refused an operation. -/
  | files
  /-- A configuration layer is missing, broken or of the wrong shape. -/
  | settings
  deriving DecidableEq, Repr, Inhabited

/-- The failure in words. What the file system, a JSON text or a configuration layer did wrong is not
told in detail. -/
def CompileError.message : CompileError → String
  | .invalidStructure entity fault => "Invalid schema structure in " ++ entity ++ ": " ++ fault.message
  | .unresolvedReferences count =>
    "Ontology has " ++ count.repr ++ " unresolved reference(s); refusing to generate in strict mode"
  | .unsupportedLanguage language => "Unsupported target language: " ++ language
  | .schemaNotFound name directory => "Schema not found: " ++ name ++ " in " ++ directory
  | .versionNotFound name version => "Schema version not found: " ++ name ++ " version " ++ version
  | .invalidCardinality encoding => unknownCardinalityText encoding
  | .invalidVersion fault => "Semver error: " ++ fault.message
  | .json _ => "JSON error"
  | .files => "IO error"
  | .settings => "Config error"

end OntologyCompiler
