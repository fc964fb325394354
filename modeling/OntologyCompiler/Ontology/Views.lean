import OntologyCompiler.Ontology.Basic

/-!
# Views of an ontology

Sorted listings, base chains, and what a class inherits. A base chain stops at a class that it has
already met, so every view exists for base references that loop. What a class declares itself replaces
what it would inherit under the same key.
-/

namespace OntologyCompiler

/-- A stable sort by a key. -/
def sortOn {α κ : Type} [Ord κ] (key : α → κ) (l : List α) : List α :=
  l.mergeSort fun a b => (compare (key a) (key b)).isLE

/-- The items whose key has not come before. -/
def keepFirst {α κ : Type} [DecidableEq κ] (key : α → κ) : List α → List α
  | [] => []
  | a :: rest => a :: (keepFirst key rest).filter fun b => key b ≠ key a

/-- The items of successive levels, without those whose key an earlier level has. -/
def mergeLevels {α κ : Type} [DecidableEq κ] (key : α → κ) (seen : List κ) : List (List α) → List α
  | [] => []
  | level :: rest =>
    level.filter (fun a => key a ∉ seen) ++ mergeLevels key (seen ++ level.map key) rest

/-- The classes reached by following bases, up to the first one already met. -/
def baseChain (base : ClassId → Option ClassId) : Nat → List ClassId → Option ClassId → List ClassId
  | 0, _, _ => []
  | _ + 1, _, none => []
  | fuel + 1, seen, some id =>
    if id ∈ seen then [] else id :: baseChain base fuel (id :: seen) (base id)

/-- The property name that marks a class as a document of its own. -/
def entityMarker : String := "meta"

namespace Ontology

variable (o : Ontology)

/-- Packages by name. -/
def sortedPackages : List Package := sortOn Package.name o.packages

/-- The order of types: by name, then by the name of their package. -/
def typeOrder (a b : String × PackageId) : Ordering :=
  (compare a.1 b.1).then (compare (o.packageName a.2) (o.packageName b.2))

/-- Classes by name, then by package name. -/
def sortedClasses : List Class :=
  o.classes.mergeSort fun a b => (o.typeOrder (a.name, a.package) (b.name, b.package)).isLE

/-- Enumerations by name, then by package name. -/
def sortedEnums : List Enumeration :=
  o.enums.mergeSort fun a b => (o.typeOrder (a.name, a.package) (b.name, b.package)).isLE

/-- The base of a class, the base of that, and so on. Each class comes at most once, so a chain has at
most as many steps as there are classes. -/
def ancestors (id : ClassId) : List ClassId :=
  baseChain o.base? (o.classes.length + 1) [id] (o.base? id)

/-- A class and its ancestors. -/
def lineage (id : ClassId) : List ClassId := id :: o.ancestors id

/-- The own and inherited properties, sorted by name. -/
def allProperties (id : ClassId) : List Property :=
  sortOn Property.name (keepFirst Property.name ((o.lineage id).flatMap o.ownProperties))

/-- The order of effective constraints: by property, then by kind. -/
def constraintOrder (a b : Constraint) : Ordering :=
  (compare a.property b.property).then (compare a.kind b.kind)

/-- The constraints that a class declares. -/
def ownConstraints (id : ClassId) : List Constraint := ((o.class? id).map Class.constraints).getD []

/-- The own and inherited constraints, sorted by property and kind. -/
def allConstraints (id : ClassId) : List Constraint :=
  (mergeLevels Constraint.key [] ((o.lineage id).map o.ownConstraints)).mergeSort
    fun a b => (constraintOrder a b).isLE

/-- The decodings that a class declares. -/
def ownDecodings (id : ClassId) : List Decoding := ((o.class? id).map Class.decodings).getD []

/-- The own and inherited decodings, sorted by property. -/
def allDecodings (id : ClassId) : List Decoding :=
  sortOn Decoding.property (mergeLevels Decoding.key [] ((o.lineage id).map o.ownDecodings))

/-- The effective constraint of a kind on a property. -/
def constraintFor (id : ClassId) (property : String) (kind : ConstraintKind) : Option Constraint :=
  (o.allConstraints id).find? fun c => c.property == property && c.kind == kind

/-- Whether a property is left out of generated code for a class. -/
def isHidden (id : ClassId) (property : String) : Bool := (o.constraintFor id property .hidden).isSome

/-- The effective properties that are not hidden. -/
def visibleProperties (id : ClassId) : List Property :=
  (o.allProperties id).filter fun p => !o.isHidden id p.name

/-- Whether a class or one of its ancestors declares the marker property. -/
def isEntity (id : ClassId) : Bool :=
  (o.lineage id).any fun c => (o.ownProperties c).any fun p => p.name == entityMarker

/-- The classes of the package at a position. -/
def classesOf (id : PackageId) : List Class :=
  ((o.package? id).map fun p => p.classes.filterMap o.class?).getD []

/-- The classes of the package at a position that are not abstract. -/
def concreteClasses (id : PackageId) : List Class := (o.classesOf id).filter fun c => !c.isAbstract

/-- The number of declared decodings. -/
def decodingCount : Nat := (o.classes.flatMap fun c => c.decodings).length

end Ontology

end OntologyCompiler
