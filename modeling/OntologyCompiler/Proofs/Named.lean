import Mathlib.Data.Multiset.Defs
import OntologyCompiler.Ontology.Views

/-!
# Ontologies by names

An ontology with names in place of references: what can be told of it without its positions. Packages, classes
and enumerations are listed by names with all that is derived for them; findings count, their order does not.
-/

namespace OntologyCompiler

/-- What a type points at, by name. -/
inductive NamedTarget where
  | scalar (kind : ScalarKind)
  | unresolved (name : String)
  | ofClass (qualifiedName : String)
  | ofEnum (qualifiedName : String)
  deriving DecidableEq

/-- A type by names. -/
structure NamedType where
  name : String
  isLinked : Bool
  alternates : List String
  target : NamedTarget
  deriving DecidableEq

/-- A property by names. -/
structure NamedProperty where
  name : String
  owner : String
  package : String
  type : NamedType
  cardinality : Cardinality
  doc : String
  deriving DecidableEq

/-- A decoding by names. -/
structure NamedDecoding where
  property : String
  rule : String
  overrideType : Option NamedType
  deriving DecidableEq

/-- A class by names, with what it inherits. -/
structure NamedClass where
  name : String
  qualifiedName : String
  package : String
  declaredBase : Option String
  base : Option String
  isAbstract : Bool
  doc : String
  ancestors : List String
  imports : OrderedSet ImportEdge
  circularImports : OrderedSet ImportEdge
  properties : List NamedProperty
  allProperties : List NamedProperty
  allConstraints : List Constraint
  allDecodings : List NamedDecoding
  deriving DecidableEq

/-- An enumeration by names. -/
structure NamedEnum where
  name : String
  qualifiedName : String
  package : String
  isOpen : Bool
  doc : String
  members : List EnumMember
  deriving DecidableEq

/-- A package by names. -/
structure NamedPackage where
  name : String
  doc : String
  classes : List String
  enums : List String
  associatedPackages : OrderedSet String
  externalTypes : OrderedSet ImportEdge
  deriving DecidableEq

/-- An ontology by names. -/
structure NamedOntology where
  name : String
  version : String
  doc : String
  packages : List NamedPackage
  classes : List NamedClass
  enums : List NamedEnum
  diagnostics : Multiset Diagnostic
  deriving DecidableEq

namespace Ontology

variable (o : Ontology)

/-- A target by name. -/
def namedTarget : TypeTarget → NamedTarget
  | .scalar kind => .scalar kind
  | .unresolved name => .unresolved name
  | .resolved (.ofClass id) => .ofClass (o.className id)
  | .resolved (.ofEnum id) => .ofEnum (o.entityName (.ofEnum id))

/-- A type by names. -/
def namedType (t : ValueType) : NamedType := ⟨t.name, t.isLinked, t.alternates, o.namedTarget t.target⟩

/-- A property by names. -/
def namedProperty (p : Property) : NamedProperty :=
  ⟨p.name, o.className p.owner, o.packageName p.package, o.namedType p.type, p.cardinality, p.doc⟩

/-- A decoding by names. -/
def namedDecoding (d : Decoding) : NamedDecoding := ⟨d.property, d.rule, d.overrideType.map o.namedType⟩

/-- A class by names. -/
def namedClass (c : Class) : NamedClass where
  name := c.name
  qualifiedName := c.qualifiedName
  package := o.packageName c.package
  declaredBase := c.declaredBase
  base := c.base.map o.className
  isAbstract := c.isAbstract
  doc := c.doc
  ancestors := (o.ancestors c.id).map o.className
  imports := c.imports
  circularImports := c.circularImports
  properties := (o.ownProperties c.id).map o.namedProperty
  allProperties := (o.allProperties c.id).map o.namedProperty
  allConstraints := o.allConstraints c.id
  allDecodings := (o.allDecodings c.id).map o.namedDecoding

/-- An enumeration by names. -/
def namedEnum (e : Enumeration) : NamedEnum :=
  ⟨e.name, e.qualifiedName, o.packageName e.package, e.isOpen, e.doc, e.members⟩

/-- A package by names. -/
def namedPackage (p : Package) : NamedPackage where
  name := p.name
  doc := p.doc
  classes := p.classes.map o.className
  enums := p.enums.map fun id => o.entityName (.ofEnum id)
  associatedPackages := .ofList (p.associatedPackages.toList.map o.packageName)
  externalTypes := p.externalTypes

/-- An ontology by names. -/
def named : NamedOntology where
  name := o.name
  version := o.version
  doc := o.doc
  packages := o.sortedPackages.map o.namedPackage
  classes := (sortOn Class.qualifiedName o.classes).map o.namedClass
  enums := (sortOn Enumeration.qualifiedName o.enums).map o.namedEnum
  diagnostics := o.diagnostics

end Ontology

end OntologyCompiler
