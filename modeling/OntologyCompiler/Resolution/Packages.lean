import OntologyCompiler.Graph
import OntologyCompiler.Ontology.Views

/-!
# Packages

Which packages a package needs, which foreign types it refers to, the order in which packages can be
loaded, and the groups that need each other.
-/

namespace OntologyCompiler.Ontology

/-- The package that owns the base of a class. -/
def basePackage? (o : Ontology) (c : Class) : Option PackageId :=
  (c.base.bind o.class?).map Class.package

/-- The packages that own the types of the required properties of a class. -/
def requiredPackages (o : Ontology) (c : Class) : List PackageId :=
  ((c.properties.filterMap o.property?).filter fun p => p.cardinality.isRequired).filterMap fun p =>
    p.type.entity?.bind o.entityPackage?

/-- The packages reached through bases and required properties, the package itself excepted. -/
def associationsOf (o : Ontology) (p : Package) : OrderedSet PackageId :=
  (OrderedSet.ofList <| (p.classes.filterMap o.class?).flatMap fun c =>
    (o.basePackage? c).toList ++ o.requiredPackages c).erase p.id

/-- Computes the associations of all packages. -/
def computeAssociations (o : Ontology) : Ontology :=
  { o with packages := o.packages.map fun p => { p with associatedPackages := o.associationsOf p } }

/-- The edge to the entity that a property points at, if another package owns it. -/
def externalEdge? (o : Ontology) (home : PackageId) (p : Property) : Option ImportEdge :=
  p.type.entity?.bind fun entity =>
    if o.entityPackage? entity = some home then none
    else (splitQualified (o.entityName entity)).map fun parts => ⟨parts.1, parts.2⟩

/-- The types of other packages that the properties of a package point at. -/
def externalTypesOf (o : Ontology) (p : Package) : OrderedSet ImportEdge :=
  OrderedSet.ofList <| (p.classes.filterMap o.class?).flatMap fun c =>
    (c.properties.filterMap o.property?).filterMap (o.externalEdge? p.id)

/-- Computes the external types of all packages. -/
def computeExternalTypes (o : Ontology) : Ontology :=
  { o with packages := o.packages.map fun p => { p with externalTypes := o.externalTypesOf p } }

/-- The place of the package that an id means in a list of packages: the last one that carries the id. -/
def placeOf? (packages : List Package) (id : PackageId) : Option Nat :=
  ((packages.zipIdx.filter fun entry => entry.1.id = id).map Prod.snd).getLast?

/-- The places of the packages that the package at a place needs, last declared first. Packages that share
an id share what they need, which is kept at the place that the id means. -/
def placesNeeded (packages : List Package) (place : Nat) : List Nat :=
  match packages[place]? with
  | none => []
  | some p =>
    if placeOf? packages p.id = some place then
      (((packages.filter fun q => q.id = p.id).flatMap fun q => q.associatedPackages.toList).filterMap
        (placeOf? packages)).reverse
    else []

/-- The places of packages in order of their names, with what they need. -/
def packageGraph (o : Ontology) : Digraph Nat :=
  let packages := o.sortedPackages
  let places := List.range packages.length
  let needed := places.map (placesNeeded packages)
  ⟨places, fun place => (needed[place]?).getD []⟩

/-- The groups of packages that reach each other, needed ones first, each group by name. -/
def packageGroups (o : Ontology) : List (List PackageId) :=
  let packages := o.sortedPackages
  o.packageGraph.components.map fun group =>
    sortOn o.packageName (group.filterMap fun place => (packages[place]?).map Package.id)

/-- All packages, needed ones first; a group that needs each other stands together in name order. -/
def packageOrder (o : Ontology) : List PackageId := o.packageGroups.flatten

/-- The names of each group of at least two packages, the groups in order of their names. -/
def packageCycles (o : Ontology) : List (List String) :=
  ((o.packageGroups.filter fun group => 1 < group.length).map fun group =>
    group.map o.packageName).mergeSort fun a b => (compare a b).isLE

/-- Reports every group of packages that need each other. -/
def reportPackageCycles (o : Ontology) : Ontology :=
  { o with diagnostics := o.diagnostics ++ o.packageCycles.map Diagnostic.packageCycle }

end OntologyCompiler.Ontology
