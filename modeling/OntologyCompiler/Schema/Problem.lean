import OntologyCompiler.Json.Text
import OntologyCompiler.Ontology.Cardinality
import OntologyCompiler.Schema.Basic
import OntologyCompiler.Text.Pieces

/-!
# Validation problems

What can be wrong with a schema before it is built. A problem names the entity it was found in by its
qualified name; values are quoted in it as compact JSON.
-/

namespace OntologyCompiler

/-- The ways in which a declared type is no type. -/
inductive TypeProblem where
  | badLinked (type : String)
  | unknownScalar (type : String)
  | noReference (type : String)
  deriving DecidableEq, Repr, Inhabited

/-- What can be wrong with an entity of a schema. -/
inductive Complaint where
  | nameMissing
  | nameForm
  | versionMissing
  | noPackages
  | packageNameForm
  | packageDocMissing
  | packageEmpty
  | typeNameForm
  | notObject (kind : TypeKind)
  | kindMismatch (declared : Json) (kind : TypeKind)
  | baseMissing
  | baseForm (base : Json)
  | abstractMissing
  | abstractForm
  | notList (key : String)
  | constraintForm (entry : Json)
  | decodingForm (entry : Json)
  | docStringsForm
  | propertyForm (entry : Json)
  | propertyNameKind (name : Json)
  | propertyNameForm
  | propertyTwice
  | typeProblem (problem : TypeProblem)
  | typeKindForm (type : Json)
  | cardinalityForm (cardinality : Json)
  | docForm (doc : Json)
  | openMissing
  | openForm
  | membersMissing
  | membersForm
  | memberTwice
  | memberForm (member : Json)
  deriving DecidableEq, Inhabited

/-- A complaint about one entity. -/
structure Problem where
  entity : String
  complaint : Complaint
  deriving DecidableEq, Inhabited

namespace TypeProblem

/-- The problem in words. -/
def message : TypeProblem → String
  | .badLinked type => "linked type '" ++ type ++ "' must wrap package.name references"
  | .unknownScalar type => "'" ++ type ++ "' is not a known scalar type"
  | .noReference type => "type '" ++ type ++ "' is neither a scalar nor a package.name reference"

end TypeProblem

namespace Complaint

/-- The complaint in words. -/
def message : Complaint → String
  | .nameMissing => "name is missing"
  | .nameForm => "name must be lower case with underscores"
  | .versionMissing => "version is missing"
  | .noPackages => "no packages defined"
  | .packageNameForm => "package name must be lower case with underscores"
  | .packageDocMissing => "package doc string is missing"
  | .packageEmpty => "package defines neither classes nor enums"
  | .typeNameForm => "type name must be lower case with underscores"
  | .notObject kind => kind.text ++ " definition is not an object"
  | .kindMismatch declared kind => "factory type " ++ declared.render ++ " does not match " ++ kind.text
  | .baseMissing => "base is missing"
  | .baseForm base => "base " ++ base.render ++ " is not a package.name reference"
  | .abstractMissing => "is_abstract is missing"
  | .abstractForm => "is_abstract must be a boolean"
  | .notList key => key ++ " must be a list"
  | .constraintForm entry => "constraint " ++ entry.render ++ " must be a (property, kind, value) tuple"
  | .decodingForm entry => "decoding " ++ entry.render ++ " must be a (property, rule[, type]) tuple"
  | .docStringsForm => "doc_strings must be an object"
  | .propertyForm entry =>
    "property " ++ entry.render ++ " must be a (name, type, cardinality[, doc]) tuple"
  | .propertyNameKind name => "property name " ++ name.render ++ " is not a string"
  | .propertyNameForm => "property name must be lower case with underscores"
  | .propertyTwice => "property declared twice"
  | .typeProblem problem => problem.message
  | .typeKindForm type => "type " ++ type.render ++ " is not a string"
  | .cardinalityForm cardinality =>
    "cardinality " ++ cardinality.render ++ " is not one of " ++ Text.join ", " Cardinality.encodings
  | .docForm doc => "doc " ++ doc.render ++ " is not a string"
  | .openMissing => "is_open is missing"
  | .openForm => "is_open must be a boolean"
  | .membersMissing => "members are missing"
  | .membersForm => "members must be a list"
  | .memberTwice => "enum member declared twice"
  | .memberForm member => "member " ++ member.render ++ " must be a name or a (name, doc) tuple"

end Complaint

/-- The problem as a line. -/
def Problem.message (p : Problem) : String := p.entity ++ ": " ++ p.complaint.message

end OntologyCompiler
