import OntologyCompiler.Ontology.Views
import OntologyCompiler.Resolution.Declaration

/-!
# Assembly

The declarations numbered in order and wired up: every entity gets its position as id, classes list
their properties by name, packages list their types, and the index finds types by qualified name.
Nothing is resolved yet.
-/

namespace OntologyCompiler.Assembly

/-- The classes of all packages, each with its package. -/
def classList (ps : List PackageDeclaration) : List (PackageId × ClassDeclaration) :=
  ps.zipIdx.flatMap fun (p, i) => p.classes.map fun c => (⟨i⟩, c)

/-- The enumerations of all packages, each with its package. -/
def enumList (ps : List PackageDeclaration) : List (PackageId × EnumDeclaration) :=
  ps.zipIdx.flatMap fun (p, i) => p.enums.map fun e => (⟨i⟩, e)

/-- The properties of all classes, each with its class and package. -/
def propertyList (ps : List PackageDeclaration) : List (ClassId × PackageId × PropertyDeclaration) :=
  (classList ps).zipIdx.flatMap fun (c, i) => c.2.properties.map fun p => (⟨i⟩, c.1, p)

/-- The properties with their ids. -/
def properties (ps : List PackageDeclaration) : List Property :=
  (propertyList ps).zipIdx.map fun ((owner, package, p), i) =>
    ⟨⟨i⟩, p.name, owner, package, p.type, p.cardinality, p.doc⟩

/-- The ids of the properties of a class, in order of their names. -/
def ownIds (all : List Property) (id : ClassId) : List PropertyId :=
  (sortOn Property.name (all.filter fun p => p.owner = id)).map Property.id

/-- The classes with their ids and properties. -/
def classes (ps : List PackageDeclaration) : List Class :=
  (classList ps).zipIdx.map fun ((package, c), i) => {
    id := ⟨i⟩
    name := c.name
    qualifiedName := c.qualifiedName
    package
    declaredBase := c.base
    base := none
    isAbstract := c.isAbstract
    doc := c.doc
    properties := ownIds (properties ps) ⟨i⟩
    constraints := c.constraints
    decodings := c.decodings
    imports := ∅
    circularImports := ∅ }

/-- The enumerations with their ids. -/
def enums (ps : List PackageDeclaration) : List Enumeration :=
  (enumList ps).zipIdx.map fun ((package, e), i) =>
    ⟨⟨i⟩, e.name, e.qualifiedName, package, e.isOpen, e.doc, e.members⟩

/-- The packages with their ids and types. -/
def packages (ps : List PackageDeclaration) : List Package :=
  ps.zipIdx.map fun (p, i) => {
    id := ⟨i⟩
    name := p.name
    doc := p.doc
    classes := ((classes ps).filter fun c => c.package = ⟨i⟩).map Class.id
    enums := ((enums ps).filter fun e => e.package = ⟨i⟩).map Enumeration.id
    associatedPackages := ∅
    externalTypes := ∅ }

/-- The types by qualified name. -/
def index (ps : List PackageDeclaration) : OrderedMap String EntityId :=
  OrderedMap.ofList <|
    (classes ps).map (fun c => (c.qualifiedName, .ofClass c.id)) ++
      (enums ps).map (fun e => (e.qualifiedName, .ofEnum e.id))

end Assembly

/-- The ontology of some declarations, before any reference is resolved. -/
def Ontology.assemble (name version doc : String) (ps : List PackageDeclaration) : Ontology where
  name := name
  version := version
  doc := doc
  packages := Assembly.packages ps
  classes := Assembly.classes ps
  enums := Assembly.enums ps
  properties := Assembly.properties ps
  index := Assembly.index ps
  diagnostics := []

end OntologyCompiler
