import OntologyCompiler.Json.Basic
import OntologyCompiler.Ontology.Cardinality
import OntologyCompiler.Ontology.Diagnostics
import OntologyCompiler.Ontology.ValueType
import OntologyCompiler.Ordered.Set

/-!
# Ontologies

A resolved ontology: packages, classes, enumerations and properties in lists, referring to each other
by their positions. References are followed with functions that answer `none` outside a list, so every
question has an answer for every ontology, built or read back.
-/

namespace OntologyCompiler

instance : Ord PackageId := ⟨compareOn PackageId.index⟩

instance : Std.TransOrd PackageId := inferInstanceAs (Std.TransCmp (compareOn PackageId.index))

instance : Std.LawfulEqOrd PackageId where
  compare_self {a} := Std.compare_self (α := Nat) (a := a.index)
  eq_of_compare {a b} h := by
    cases a; cases b
    exact congrArg _ (Std.LawfulEqOrd.eq_of_compare (α := Nat) h)

/-- The reference from one generated module to a type in another. -/
structure ImportEdge where
  package : String
  typeName : String
  deriving DecidableEq, Repr, Inhabited

namespace ImportEdge

/-- Edges are ordered by package, then by type name. -/
instance : Ord ImportEdge := ⟨compareLex (compareOn package) (compareOn typeName)⟩

instance : Std.TransOrd ImportEdge :=
  inferInstanceAs (Std.TransCmp (compareLex (compareOn package) (compareOn typeName)))

instance : Std.LawfulEqOrd ImportEdge where
  compare_self {a} :=
    Ordering.then_eq_eq.mpr
      ⟨Std.compare_self (α := String) (a := a.package), Std.compare_self (α := String) (a := a.typeName)⟩
  eq_of_compare {a b} h := by
    have h := Ordering.then_eq_eq.mp h
    cases a; cases b
    have h₁ := Std.LawfulEqOrd.eq_of_compare (α := String) h.1
    have h₂ := Std.LawfulEqOrd.eq_of_compare (α := String) h.2
    simp_all

/-- Package and type name with a dot. -/
def render (e : ImportEdge) : String := e.package ++ "." ++ e.typeName

end ImportEdge

/-- What a constraint says about a property. -/
inductive ConstraintKind where
  /-- The property has one fixed value. -/
  | constant
  /-- The inherited cardinality is overridden. -/
  | cardinality
  /-- The inherited type is narrowed. -/
  | type
  /-- The property is left out of generated code. -/
  | hidden
  /-- The value must match a pattern. -/
  | regex
  /-- The value must be one of a set. -/
  | value
  | other (name : String)
  deriving DecidableEq, Repr, Inhabited

namespace ConstraintKind

/-- Reads the name of a kind. -/
def parse (name : String) : ConstraintKind :=
  if name = "constant" then .constant
  else if name = "cardinality" then .cardinality
  else if name = "type" then .type
  else if name = "hidden" then .hidden
  else if name = "regex" then .regex
  else if name = "value" then .value
  else .other name

/-- The name of a kind. -/
def text : ConstraintKind → String
  | .constant => "constant"
  | .cardinality => "cardinality"
  | .type => "type"
  | .hidden => "hidden"
  | .regex => "regex"
  | .value => "value"
  | .other name => name

/-- The place of a kind in the order of kinds. -/
def rank : ConstraintKind → Nat
  | .constant => 0
  | .cardinality => 1
  | .type => 2
  | .hidden => 3
  | .regex => 4
  | .value => 5
  | .other _ => 6

/-- The free name of a kind that has one. -/
def freeName : ConstraintKind → String
  | .other name => name
  | _ => ""

/-- Kinds in their listed order, free ones by name. -/
instance : Ord ConstraintKind := ⟨compareLex (compareOn rank) (compareOn freeName)⟩

end ConstraintKind

/-- A restriction that a class puts on a property. -/
structure Constraint where
  property : String
  kind : ConstraintKind
  value : Json
  deriving DecidableEq, Inhabited

/-- How a property is filled from an external document. -/
structure Decoding where
  property : String
  rule : String
  overrideType : Option ValueType
  deriving DecidableEq, Repr, Inhabited

/-- A property of a class. -/
structure Property where
  id : PropertyId
  name : String
  owner : ClassId
  package : PackageId
  type : ValueType
  cardinality : Cardinality
  doc : String
  deriving DecidableEq, Repr, Inhabited

/-- A class. -/
structure Class where
  id : ClassId
  name : String
  qualifiedName : String
  package : PackageId
  /-- The base as declared. -/
  declaredBase : Option String
  /-- The base that was found and not cut. -/
  base : Option ClassId
  isAbstract : Bool
  doc : String
  /-- The own properties in order of their names. -/
  properties : List PropertyId
  constraints : List Constraint
  decodings : List Decoding
  imports : OrderedSet ImportEdge
  circularImports : OrderedSet ImportEdge
  deriving DecidableEq, Inhabited

/-- A member of an enumeration. -/
structure EnumMember where
  name : String
  doc : String
  deriving DecidableEq, Repr, Inhabited

/-- An enumeration. -/
structure Enumeration where
  id : EnumId
  name : String
  qualifiedName : String
  package : PackageId
  /-- Whether other values than the members are allowed. -/
  isOpen : Bool
  doc : String
  /-- The members in order of their names. -/
  members : List EnumMember
  deriving DecidableEq, Repr, Inhabited

/-- A package. -/
structure Package where
  id : PackageId
  name : String
  doc : String
  classes : List ClassId
  enums : List EnumId
  /-- The packages reached through bases and required properties. -/
  associatedPackages : OrderedSet PackageId
  /-- The types of other packages that properties refer to. -/
  externalTypes : OrderedSet ImportEdge
  deriving DecidableEq, Inhabited

/-- A resolved ontology. -/
structure Ontology where
  name : String
  version : String
  doc : String
  packages : List Package
  classes : List Class
  enums : List Enumeration
  properties : List Property
  /-- The classes and enumerations by qualified name. -/
  index : OrderedMap String EntityId
  diagnostics : Diagnostics
  deriving DecidableEq, Inhabited

namespace Decoding

/-- Decodings with the same key replace inherited ones. -/
def key (d : Decoding) : String × Option String := (d.property, d.overrideType.map ValueType.name)

end Decoding

namespace Constraint

/-- Constraints with the same key replace inherited ones. -/
def key (c : Constraint) : ConstraintKind × String := (c.kind, c.property)

end Constraint

namespace Ontology

variable (o : Ontology)

/-- The package at a position. -/
def package? (id : PackageId) : Option Package := o.packages[id.index]?

/-- The class at a position. -/
def class? (id : ClassId) : Option Class := o.classes[id.index]?

/-- The enumeration at a position. -/
def enum? (id : EnumId) : Option Enumeration := o.enums[id.index]?

/-- The property at a position. -/
def property? (id : PropertyId) : Option Property := o.properties[id.index]?

/-- The name of the package at a position. -/
def packageName (id : PackageId) : String := ((o.package? id).map Package.name).getD ""

/-- The qualified name of the class at a position. -/
def className (id : ClassId) : String := ((o.class? id).map Class.qualifiedName).getD ""

/-- The base of the class at a position. -/
def base? (id : ClassId) : Option ClassId := (o.class? id).bind Class.base

/-- The entity with a qualified name. -/
def lookup (qualifiedName : String) : Option EntityId := o.index.get? qualifiedName

/-- The first package with a name. -/
def findPackage (name : String) : Option Package := o.packages.find? fun p => p.name == name

/-- The class with a qualified name. -/
def findClass (qualifiedName : String) : Option Class :=
  match o.lookup qualifiedName with
  | some (.ofClass id) => o.class? id
  | _ => none

/-- The enumeration with a qualified name. -/
def findEnum (qualifiedName : String) : Option Enumeration :=
  match o.lookup qualifiedName with
  | some (.ofEnum id) => o.enum? id
  | _ => none

/-- The own properties of the class at a position. -/
def ownProperties (id : ClassId) : List Property :=
  ((o.class? id).map fun c => c.properties.filterMap o.property?).getD []

/-- The own property of a class with a name. -/
def findProperty (id : ClassId) (name : String) : Option Property :=
  (o.ownProperties id).find? fun p => p.name == name

/-- The package that owns an entity. -/
def entityPackage? : EntityId → Option PackageId
  | .ofClass id => (o.class? id).map Class.package
  | .ofEnum id => (o.enum? id).map Enumeration.package

/-- The qualified name of an entity. -/
def entityName : EntityId → String
  | .ofClass id => o.className id
  | .ofEnum id => ((o.enum? id).map Enumeration.qualifiedName).getD ""

/-- The edge that refers to a class. -/
def edgeTo (c : Class) : ImportEdge := ⟨o.packageName c.package, c.name⟩

end Ontology

end OntologyCompiler
