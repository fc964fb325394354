import OntologyCompiler.Json.Decode
import OntologyCompiler.Ontology.Basic

/-!
# Ontologies as JSON

The JSON form of an ontology and its reading. Ids are written as positions, sets in ascending order,
and variants by their names, with what they carry as the only field of an object.
-/

namespace OntologyCompiler

open Json

/-- A variant that carries a value. -/
def Json.variant (name : String) (v : Json) : Json := .object [(name, v)]

/-- An optional value, null if absent. -/
def Json.ofOption {α : Type} (encode : α → Json) : Option α → Json
  | none => .null
  | some a => encode a

/-- A list of values. -/
def Json.ofList {α : Type} (encode : α → Json) (l : List α) : Json := .list (l.map encode)

namespace PackageId

/-- Writes an id. -/
def toJson (id : PackageId) : Json := .int id.index

/-- Reads an id. -/
def ofJson (v : Json) : Decoded PackageId := (asNat v).map fun n => ⟨n⟩

end PackageId

namespace ClassId

/-- Writes an id. -/
def toJson (id : ClassId) : Json := .int id.index

/-- Reads an id. -/
def ofJson (v : Json) : Decoded ClassId := (asNat v).map fun n => ⟨n⟩

end ClassId

namespace EnumId

/-- Writes an id. -/
def toJson (id : EnumId) : Json := .int id.index

/-- Reads an id. -/
def ofJson (v : Json) : Decoded EnumId := (asNat v).map fun n => ⟨n⟩

end EnumId

namespace PropertyId

/-- Writes an id. -/
def toJson (id : PropertyId) : Json := .int id.index

/-- Reads an id. -/
def ofJson (v : Json) : Decoded PropertyId := (asNat v).map fun n => ⟨n⟩

end PropertyId

namespace EntityId

/-- Writes an entity. -/
def toJson : EntityId → Json
  | .ofClass id => variant "Class" id.toJson
  | .ofEnum id => variant "Enum" id.toJson

/-- Reads an entity. -/
def ofJson (v : Json) : Decoded EntityId := do
  let (name, carried) ← asVariant v
  if name = "Class" then (carrying ClassId.ofJson carried).map .ofClass
  else if name = "Enum" then (carrying EnumId.ofJson carried).map .ofEnum
  else throw .mistyped

end EntityId

namespace ScalarKind

/-- Writes a scalar. -/
def toJson (kind : ScalarKind) : Json := .text kind.keyword

/-- Reads a scalar. -/
def ofJson (v : Json) : Decoded ScalarKind := do
  let (name, carried) ← asVariant v
  match ofKeyword? name with
  | some kind => bare kind carried
  | none => throw .mistyped

end ScalarKind

namespace TypeTarget

/-- Writes a target. -/
def toJson : TypeTarget → Json
  | .scalar kind => variant "Scalar" kind.toJson
  | .unresolved name => variant "Unresolved" (.text name)
  | .resolved entity => variant "Resolved" entity.toJson

/-- Reads a target. -/
def ofJson (v : Json) : Decoded TypeTarget := do
  let (name, carried) ← asVariant v
  if name = "Scalar" then (carrying ScalarKind.ofJson carried).map .scalar
  else if name = "Unresolved" then (carrying asText carried).map .unresolved
  else if name = "Resolved" then (carrying EntityId.ofJson carried).map .resolved
  else throw .mistyped

end TypeTarget

namespace ValueType

/-- Writes a type. -/
def toJson (t : ValueType) : Json :=
  .object [
    ("alternates", Json.ofList .text t.alternates),
    ("is_linked", .boolean t.isLinked),
    ("name", .text t.name),
    ("target", t.target.toJson)]

/-- Reads a type. -/
def ofJson (v : Json) : Decoded ValueType := do
  let r ← asRecord ["name", "is_linked", "alternates", "target"] v
  let name ← r.required "name" asText
  let isLinked ← r.required "is_linked" asBoolean
  let alternates ← r.required "alternates" (asList asText)
  let target ← r.required "target" TypeTarget.ofJson
  pure ⟨name, isLinked, alternates, target⟩

end ValueType

namespace MaxOccurs

/-- Writes an upper bound. -/
def toJson : MaxOccurs → Json
  | .one => .text "One"
  | .many => .text "Many"

/-- Reads an upper bound. -/
def ofJson (v : Json) : Decoded MaxOccurs := do
  let (name, carried) ← asVariant v
  if name = "One" then bare .one carried
  else if name = "Many" then bare .many carried
  else throw .mistyped

end MaxOccurs

namespace Cardinality

/-- Writes a cardinality. -/
def toJson (c : Cardinality) : Json := .object [("max", c.max.toJson), ("min", .int c.min)]

/-- Reads a least number of occurrences, which fits a byte. -/
def minOfJson (v : Json) : Decoded Nat := do
  let n ← asNat v
  if n < 256 then pure n else throw .mistyped

/-- Reads a cardinality. -/
def ofJson (v : Json) : Decoded Cardinality := do
  let r ← asRecord ["min", "max"] v
  let min ← r.required "min" minOfJson
  let max ← r.required "max" MaxOccurs.ofJson
  pure ⟨min, max⟩

end Cardinality

namespace ImportEdge

/-- Writes an edge. -/
def toJson (e : ImportEdge) : Json := .object [("package", .text e.package), ("type_name", .text e.typeName)]

/-- Reads an edge. -/
def ofJson (v : Json) : Decoded ImportEdge := do
  let r ← asRecord ["package", "type_name"] v
  let package ← r.required "package" asText
  let typeName ← r.required "type_name" asText
  pure ⟨package, typeName⟩

/-- Writes a set of edges. -/
def setToJson (s : OrderedSet ImportEdge) : Json := Json.ofList toJson s.toList

/-- Reads a set of edges. -/
def setOfJson (v : Json) : Decoded (OrderedSet ImportEdge) := (asList ofJson v).map OrderedSet.ofList

end ImportEdge

namespace ConstraintKind

/-- Writes a kind. -/
def toJson : ConstraintKind → Json
  | .constant => .text "Constant"
  | .cardinality => .text "Cardinality"
  | .type => .text "Type"
  | .hidden => .text "Hidden"
  | .regex => .text "Regex"
  | .value => .text "Value"
  | .other name => variant "Other" (.text name)

/-- Reads a kind. -/
def ofJson (v : Json) : Decoded ConstraintKind := do
  let (name, carried) ← asVariant v
  if name = "Constant" then bare .constant carried
  else if name = "Cardinality" then bare .cardinality carried
  else if name = "Type" then bare .type carried
  else if name = "Hidden" then bare .hidden carried
  else if name = "Regex" then bare .regex carried
  else if name = "Value" then bare .value carried
  else if name = "Other" then (carrying asText carried).map .other
  else throw .mistyped

end ConstraintKind

namespace Constraint

/-- Writes a constraint. -/
def toJson (c : Constraint) : Json :=
  .object [("kind", c.kind.toJson), ("property", .text c.property), ("value", c.value)]

/-- Reads a constraint. -/
def ofJson (v : Json) : Decoded Constraint := do
  let r ← asRecord ["property", "kind", "value"] v
  let property ← r.required "property" asText
  let kind ← r.required "kind" ConstraintKind.ofJson
  let value ← r.required "value" .ok
  pure ⟨property, kind, value⟩

end Constraint

namespace Decoding

/-- Writes a decoding. -/
def toJson (d : Decoding) : Json :=
  .object [
    ("override_type", Json.ofOption ValueType.toJson d.overrideType),
    ("property", .text d.property),
    ("rule", .text d.rule)]

/-- Reads a decoding. -/
def ofJson (v : Json) : Decoded Decoding := do
  let r ← asRecord ["property", "rule", "override_type"] v
  let property ← r.required "property" asText
  let rule ← r.required "rule" asText
  let overrideType ← r.optional "override_type" ValueType.ofJson
  pure ⟨property, rule, overrideType⟩

end Decoding

namespace Property

/-- Writes a property. -/
def toJson (p : Property) : Json :=
  .object [
    ("cardinality", p.cardinality.toJson),
    ("class", p.owner.toJson),
    ("doc", .text p.doc),
    ("id", p.id.toJson),
    ("name", .text p.name),
    ("package", p.package.toJson),
    ("ty", p.type.toJson)]

/-- Reads a property. -/
def ofJson (v : Json) : Decoded Property := do
  let r ← asRecord ["id", "name", "class", "package", "ty", "cardinality", "doc"] v
  let id ← r.required "id" PropertyId.ofJson
  let name ← r.required "name" asText
  let owner ← r.required "class" ClassId.ofJson
  let package ← r.required "package" PackageId.ofJson
  let type ← r.required "ty" ValueType.ofJson
  let cardinality ← r.required "cardinality" Cardinality.ofJson
  let doc ← r.required "doc" asText
  pure ⟨id, name, owner, package, type, cardinality, doc⟩

end Property

namespace Class

/-- Writes a class. -/
def toJson (c : Class) : Json :=
  .object [
    ("base", Json.ofOption ClassId.toJson c.base),
    ("circular_imports", ImportEdge.setToJson c.circularImports),
    ("constraints", Json.ofList Constraint.toJson c.constraints),
    ("declared_base", Json.ofOption .text c.declaredBase),
    ("decodings", Json.ofList Decoding.toJson c.decodings),
    ("doc", .text c.doc),
    ("id", c.id.toJson),
    ("imports", ImportEdge.setToJson c.imports),
    ("is_abstract", .boolean c.isAbstract),
    ("name", .text c.name),
    ("package", c.package.toJson),
    ("properties", Json.ofList PropertyId.toJson c.properties),
    ("qualified_name", .text c.qualifiedName)]

/-- Reads a class. -/
def ofJson (v : Json) : Decoded Class := do
  let r ← asRecord ["id", "name", "qualified_name", "package", "declared_base", "base", "is_abstract",
    "doc", "properties", "constraints", "decodings", "imports", "circular_imports"] v
  let id ← r.required "id" ClassId.ofJson
  let name ← r.required "name" asText
  let qualifiedName ← r.required "qualified_name" asText
  let package ← r.required "package" PackageId.ofJson
  let declaredBase ← r.optional "declared_base" asText
  let base ← r.optional "base" ClassId.ofJson
  let isAbstract ← r.required "is_abstract" asBoolean
  let doc ← r.required "doc" asText
  let properties ← r.required "properties" (asList PropertyId.ofJson)
  let constraints ← r.required "constraints" (asList Constraint.ofJson)
  let decodings ← r.required "decodings" (asList Decoding.ofJson)
  let imports ← r.required "imports" ImportEdge.setOfJson
  let circularImports ← r.required "circular_imports" ImportEdge.setOfJson
  pure {
    id, name, qualifiedName, package, declaredBase, base, isAbstract, doc, properties, constraints,
    decodings, imports, circularImports }

end Class

namespace EnumMember

/-- Writes a member. -/
def toJson (m : EnumMember) : Json := .object [("doc", .text m.doc), ("name", .text m.name)]

/-- Reads a member. -/
def ofJson (v : Json) : Decoded EnumMember := do
  let r ← asRecord ["name", "doc"] v
  let name ← r.required "name" asText
  let doc ← r.required "doc" asText
  pure ⟨name, doc⟩

end EnumMember

namespace Enumeration

/-- Writes an enumeration. -/
def toJson (e : Enumeration) : Json :=
  .object [
    ("doc", .text e.doc),
    ("id", e.id.toJson),
    ("is_open", .boolean e.isOpen),
    ("members", Json.ofList EnumMember.toJson e.members),
    ("name", .text e.name),
    ("package", e.package.toJson),
    ("qualified_name", .text e.qualifiedName)]

/-- Reads an enumeration. -/
def ofJson (v : Json) : Decoded Enumeration := do
  let r ← asRecord ["id", "name", "qualified_name", "package", "is_open", "doc", "members"] v
  let id ← r.required "id" EnumId.ofJson
  let name ← r.required "name" asText
  let qualifiedName ← r.required "qualified_name" asText
  let package ← r.required "package" PackageId.ofJson
  let isOpen ← r.required "is_open" asBoolean
  let doc ← r.required "doc" asText
  let members ← r.required "members" (asList EnumMember.ofJson)
  pure ⟨id, name, qualifiedName, package, isOpen, doc, members⟩

end Enumeration

namespace Package

/-- Writes a package. -/
def toJson (p : Package) : Json :=
  .object [
    ("associated_packages", Json.ofList PackageId.toJson p.associatedPackages.toList),
    ("classes", Json.ofList ClassId.toJson p.classes),
    ("doc", .text p.doc),
    ("enums", Json.ofList EnumId.toJson p.enums),
    ("external_types", ImportEdge.setToJson p.externalTypes),
    ("id", p.id.toJson),
    ("name", .text p.name)]

/-- Reads a package. -/
def ofJson (v : Json) : Decoded Package := do
  let r ← asRecord ["id", "name", "doc", "classes", "enums", "associated_packages", "external_types"] v
  let id ← r.required "id" PackageId.ofJson
  let name ← r.required "name" asText
  let doc ← r.required "doc" asText
  let classes ← r.required "classes" (asList ClassId.ofJson)
  let enums ← r.required "enums" (asList EnumId.ofJson)
  let associated ← r.required "associated_packages" (asList PackageId.ofJson)
  let externalTypes ← r.required "external_types" ImportEdge.setOfJson
  pure ⟨id, name, doc, classes, enums, OrderedSet.ofList associated, externalTypes⟩

end Package

namespace DiagnosticCode

/-- All kinds of findings. -/
def all : List DiagnosticCode :=
  [.unresolvedBase, .unresolvedType, .inheritanceCycle, .circularImport, .packageCycle]

/-- The name of a kind. -/
def name : DiagnosticCode → String
  | .unresolvedBase => "UnresolvedBase"
  | .unresolvedType => "UnresolvedType"
  | .inheritanceCycle => "InheritanceCycle"
  | .circularImport => "CircularImport"
  | .packageCycle => "PackageCycle"

/-- The kind with a name. -/
def ofName? (s : String) : Option DiagnosticCode := all.find? fun code => code.name == s

/-- Writes a kind. -/
def toJson (code : DiagnosticCode) : Json := .text code.name

/-- Reads a kind. -/
def ofJson (v : Json) : Decoded DiagnosticCode := do
  let (name, carried) ← asVariant v
  match ofName? name with
  | some code => bare code carried
  | none => throw .mistyped

end DiagnosticCode

namespace Diagnostic

/-- Writes a finding. -/
def toJson (d : Diagnostic) : Json :=
  .object [("code", d.code.toJson), ("entity", .text d.entity), ("message", .text d.message)]

/-- Reads a finding. -/
def ofJson (v : Json) : Decoded Diagnostic := do
  let r ← asRecord ["entity", "code", "message"] v
  let entity ← r.required "entity" asText
  let code ← r.required "code" DiagnosticCode.ofJson
  let message ← r.required "message" asText
  pure ⟨entity, code, message⟩

end Diagnostic

namespace Diagnostics

/-- Writes the findings. -/
def toJson (ds : Diagnostics) : Json := .object [("items", Json.ofList Diagnostic.toJson ds)]

/-- Reads findings. -/
def ofJson (v : Json) : Decoded Diagnostics := do
  let r ← asRecord ["items"] v
  r.required "items" (asList Diagnostic.ofJson)

end Diagnostics

namespace Ontology

/-- Writes the index. -/
def indexToJson (index : OrderedMap String EntityId) : Json :=
  .object (index.entries.map fun e => (e.1, e.2.toJson))

/-- Writes an ontology. -/
def toJson (o : Ontology) : Json :=
  .object [
    ("classes", Json.ofList Class.toJson o.classes),
    ("diagnostics", Diagnostics.toJson o.diagnostics),
    ("doc", .text o.doc),
    ("enums", Json.ofList Enumeration.toJson o.enums),
    ("index", indexToJson o.index),
    ("name", .text o.name),
    ("packages", Json.ofList Package.toJson o.packages),
    ("properties", Json.ofList Property.toJson o.properties),
    ("version", .text o.version)]

/-- Reads an ontology. -/
def ofJson (v : Json) : Decoded Ontology := do
  let r ← asRecord ["name", "version", "doc", "packages", "classes", "enums", "properties", "index",
    "diagnostics"] v
  let name ← r.required "name" asText
  let version ← r.required "version" asText
  let doc ← r.required "doc" asText
  let packages ← r.required "packages" (asList Package.ofJson)
  let classes ← r.required "classes" (asList Class.ofJson)
  let enums ← r.required "enums" (asList Enumeration.ofJson)
  let properties ← r.required "properties" (asList Property.ofJson)
  let index ← r.required "index" (asMap EntityId.ofJson)
  let diagnostics ← r.required "diagnostics" Diagnostics.ofJson
  pure ⟨name, version, doc, packages, classes, enums, properties, index, diagnostics⟩

end Ontology

end OntologyCompiler
