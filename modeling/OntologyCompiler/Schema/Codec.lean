import OntologyCompiler.Json.Decode
import OntologyCompiler.Json.Shape
import OntologyCompiler.Schema.Basic

/-!
# Schemas as JSON

The JSON form of a schema, its reading from a value and from a text. Every field may be missing. A
missing or null map of classes or enumerations is written by leaving the field out.
-/

namespace OntologyCompiler.Schema

open Json

/-- The fields of a package, in order. -/
def Package.fieldNames : List String := ["name", "doc", "classes", "enums"]

/-- The shape of a definition map that may be absent. -/
def definitionsShape : Shape := .optional (.mapping .any)

/-- The shape of a package in a text. -/
def Package.shape : Shape :=
  .record [("name", .text), ("doc", .optional .text), ("classes", definitionsShape),
    ("enums", definitionsShape)]

/-- The shape of a schema in a text. -/
def shape : Shape :=
  .record [("name", .text), ("version", .text), ("doc", .text), ("packages", .list Package.shape)]

/-- Reads a definition map. -/
def definitionsOfJson : Json → Decoded DefinitionMap := asMap fun body => .ok body

/-- Reads a package. -/
def Package.ofJson (v : Json) : Decoded Package := do
  let r ← asRecord fieldNames v
  let name ← r.withDefault "name" "" asText
  let doc ← r.withDefault "doc" none (asOption asText)
  let classes ← r.withDefault "classes" none (asOption definitionsOfJson)
  let enums ← r.withDefault "enums" none (asOption definitionsOfJson)
  pure ⟨name, doc, classes, enums⟩

/-- The fields of a schema, in order. -/
def fieldNames : List String := ["name", "version", "doc", "packages"]

/-- Reads a schema. -/
def ofJson (v : Json) : Decoded Schema := do
  let r ← asRecord fieldNames v
  let name ← r.withDefault "name" "" asText
  let version ← r.withDefault "version" "" asText
  let doc ← r.withDefault "doc" "" asText
  let packages ← r.withDefault "packages" [] (asList Package.ofJson)
  pure ⟨name, version, doc, packages⟩

/-- Reads a schema from a text. -/
def ofText (s : String) : Except ReadFailure Schema := do
  let v ← shape.readText s
  ofJson v

/-- The field of a definition map, if there is one. -/
def definitionsField (name : String) : Option DefinitionMap → List (String × Json)
  | none => []
  | some m => [(name, .object m.entries)]

/-- An optional text. -/
def optionalText : Option String → Json
  | none => .null
  | some s => .text s

/-- Writes a package. -/
def Package.toJson (p : Package) : Json :=
  .object <|
    definitionsField "classes" p.classes ++ [("doc", optionalText p.doc)] ++
      definitionsField "enums" p.enums ++ [("name", .text p.name)]

/-- Writes a schema. -/
def toJson (s : Schema) : Json :=
  .object [
    ("doc", .text s.doc),
    ("name", .text s.name),
    ("packages", .list (s.packages.map Package.toJson)),
    ("version", .text s.version)]

end OntologyCompiler.Schema
