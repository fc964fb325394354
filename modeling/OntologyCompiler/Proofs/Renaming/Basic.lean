import OntologyCompiler.Ontology.Views
import OntologyCompiler.Proofs.Renaming.Moved
import OntologyCompiler.Resolution.References

/-!
# Renamings

References are positions, so an ontology whose lists are in another order has other references throughout.
A renaming gives every position its new one. It carries an ontology to another one if the other one has, at
the new positions, the same items with their references renamed.
-/

namespace OntologyCompiler

/-- New positions for packages, classes, enumerations and properties. -/
structure Renaming where
  packageAt : ℕ → ℕ
  classAt : ℕ → ℕ
  enumAt : ℕ → ℕ
  propertyAt : ℕ → ℕ

namespace Renaming

variable (ρ : Renaming)

/-- The new reference to a package. -/
def package (id : PackageId) : PackageId := ⟨ρ.packageAt id.index⟩

/-- The new reference to a class. -/
def ofClass (id : ClassId) : ClassId := ⟨ρ.classAt id.index⟩

/-- The new reference to an enumeration. -/
def ofEnum (id : EnumId) : EnumId := ⟨ρ.enumAt id.index⟩

/-- The new reference to a property. -/
def property (id : PropertyId) : PropertyId := ⟨ρ.propertyAt id.index⟩

/-- The new reference to a class or an enumeration. -/
def entity : EntityId → EntityId
  | .ofClass id => .ofClass (ρ.ofClass id)
  | .ofEnum id => .ofEnum (ρ.ofEnum id)

/-- A target with its reference renamed. -/
def target : TypeTarget → TypeTarget
  | .resolved e => .resolved (ρ.entity e)
  | .scalar kind => .scalar kind
  | .unresolved name => .unresolved name

/-- A type with its reference renamed. -/
def type (t : ValueType) : ValueType := { t with target := ρ.target t.target }

/-- A decoding with its references renamed. -/
def onDecoding (d : Decoding) : Decoding := { d with overrideType := d.overrideType.map ρ.type }

/-- A property with its references renamed. -/
def onProperty (p : Property) : Property :=
  { p with id := ρ.property p.id, owner := ρ.ofClass p.owner, package := ρ.package p.package, type := ρ.type p.type }

/-- A class with its references renamed. -/
def onClass (c : Class) : Class :=
  { c with
    id := ρ.ofClass c.id
    package := ρ.package c.package
    base := c.base.map ρ.ofClass
    properties := c.properties.map ρ.property
    decodings := c.decodings.map ρ.onDecoding }

/-- An enumeration with its references renamed. -/
def onEnum (e : Enumeration) : Enumeration := { e with id := ρ.ofEnum e.id, package := ρ.package e.package }

/-- A package with its references renamed. -/
def onPackage (p : Package) : Package :=
  { p with
    id := ρ.package p.id
    classes := p.classes.map ρ.ofClass
    enums := p.enums.map ρ.ofEnum
    associatedPackages := .ofList (p.associatedPackages.toList.map ρ.package) }

/-- The ontology is the same but for its references, which are renamed, and the order of its findings. -/
structure Carries (o o' : Ontology) : Prop where
  name_eq : o'.name = o.name
  version_eq : o'.version = o.version
  doc_eq : o'.doc = o.doc
  packages : Moved ρ.packageAt ρ.onPackage o.packages o'.packages
  classes : Moved ρ.classAt ρ.onClass o.classes o'.classes
  enums : Moved ρ.enumAt ρ.onEnum o.enums o'.enums
  properties : Moved ρ.propertyAt ρ.onProperty o.properties o'.properties
  index : ∀ name, o'.index.get? name = (o.index.get? name).map ρ.entity
  diagnostics : o'.diagnostics.Perm o.diagnostics

variable {ρ} in
/-- If positions of packages stay apart, so do references. -/
theorem package_eq_iff (h : Function.Injective ρ.packageAt) {a b : PackageId} : ρ.package a = ρ.package b ↔ a = b := by
  cases a; cases b
  simp [package, h.eq_iff]

variable {ρ} in
/-- If positions of classes stay apart, so do references. -/
theorem ofClass_eq_iff (h : Function.Injective ρ.classAt) {a b : ClassId} : ρ.ofClass a = ρ.ofClass b ↔ a = b := by
  cases a; cases b
  simp [ofClass, h.eq_iff]

/-- A renamed type is resolved if the type is. -/
theorem isResolved_type (t : ValueType) : (ρ.type t).isResolved = t.isResolved := by
  rcases t with ⟨name, isLinked, alternates, _ | _ | e⟩ <;> rfl

/-- A renamed type points at the renamed class. -/
theorem classId?_type (t : ValueType) : (ρ.type t).classId? = t.classId?.map ρ.ofClass := by
  rcases t with ⟨name, isLinked, alternates, _ | _ | _ | _⟩ <;> rfl

/-- A renamed type points at the renamed entity. -/
theorem entity?_type (t : ValueType) : (ρ.type t).entity? = t.entity?.map ρ.entity := by
  rcases t with ⟨name, isLinked, alternates, _ | _ | e⟩ <;> rfl

/-- A type that points nowhere or at a scalar has no reference to rename. -/
theorem type_eq_self {t : ValueType} (h : t.entity? = none) : ρ.type t = t := by
  rcases t with ⟨name, isLinked, alternates, _ | _ | e⟩
  · rfl
  · rfl
  · cases h

/-- A decoding whose type points at no entity has no reference to rename. -/
theorem onDecoding_eq_self {d : Decoding} (h : ∀ t ∈ d.overrideType, t.entity? = none) : ρ.onDecoding d = d := by
  obtain ⟨property, rule, _ | t⟩ := d
  · rfl
  · simp [onDecoding, ρ.type_eq_self (h t rfl)]

namespace Carries

variable {ρ} {o o' : Ontology} (h : ρ.Carries o o')

include h

/-- Different packages have different new references. -/
theorem package_inj {a b : PackageId} : ρ.package a = ρ.package b ↔ a = b :=
  package_eq_iff h.packages.injective

/-- Different classes have different new references. -/
theorem ofClass_inj {a b : ClassId} : ρ.ofClass a = ρ.ofClass b ↔ a = b :=
  ofClass_eq_iff h.classes.injective

/-- The package at a new position. -/
theorem package? (id : PackageId) : o'.package? (ρ.package id) = (o.package? id).map ρ.onPackage :=
  h.packages.getElem? id.index

/-- The class at a new position. -/
theorem class? (id : ClassId) : o'.class? (ρ.ofClass id) = (o.class? id).map ρ.onClass :=
  h.classes.getElem? id.index

/-- The enumeration at a new position. -/
theorem enum? (id : EnumId) : o'.enum? (ρ.ofEnum id) = (o.enum? id).map ρ.onEnum :=
  h.enums.getElem? id.index

/-- The property at a new position. -/
theorem property? (id : PropertyId) : o'.property? (ρ.property id) = (o.property? id).map ρ.onProperty :=
  h.properties.getElem? id.index

/-- The classes at new positions. -/
theorem filterMap_class? (ids : List ClassId) :
    (ids.map ρ.ofClass).filterMap o'.class? = (ids.filterMap o.class?).map ρ.onClass := by
  simp only [List.filterMap_map, List.map_filterMap, Function.comp_def, h.class?]

/-- The properties at new positions. -/
theorem filterMap_property? (ids : List PropertyId) :
    (ids.map ρ.property).filterMap o'.property? = (ids.filterMap o.property?).map ρ.onProperty := by
  simp only [List.filterMap_map, List.map_filterMap, Function.comp_def, h.property?]

/-- Packages keep their names. -/
theorem packageName (id : PackageId) : o'.packageName (ρ.package id) = o.packageName id := by
  rw [Ontology.packageName, Ontology.packageName, h.package?, Option.map_map]
  rfl

/-- Classes keep their names. -/
theorem className (id : ClassId) : o'.className (ρ.ofClass id) = o.className id := by
  rw [Ontology.className, Ontology.className, h.class?, Option.map_map]
  rfl

/-- Entities keep their names. -/
theorem entityName (e : EntityId) : o'.entityName (ρ.entity e) = o.entityName e := by
  cases e with
  | ofClass id => exact h.className id
  | ofEnum id =>
    change ((o'.enum? (ρ.ofEnum id)).map Enumeration.qualifiedName).getD "" = _
    rw [h.enum?, Option.map_map]
    rfl

/-- Entities keep their packages. -/
theorem entityPackage? (e : EntityId) : o'.entityPackage? (ρ.entity e) = (o.entityPackage? e).map ρ.package := by
  cases e with
  | ofClass id =>
    change (o'.class? (ρ.ofClass id)).map Class.package = ((o.class? id).map Class.package).map ρ.package
    rw [h.class?, Option.map_map, Option.map_map]
    rfl
  | ofEnum id =>
    change (o'.enum? (ρ.ofEnum id)).map Enumeration.package = ((o.enum? id).map Enumeration.package).map ρ.package
    rw [h.enum?, Option.map_map, Option.map_map]
    rfl

/-- Classes keep their bases. -/
theorem base? (id : ClassId) : o'.base? (ρ.ofClass id) = (o.base? id).map ρ.ofClass := by
  rw [Ontology.base?, Ontology.base?, h.class?, Option.bind_map, Option.map_bind]
  rfl

/-- The base of a renamed class. -/
theorem base_onClass (c : Class) :
    (ρ.onClass c).base.bind o'.class? = (c.base.bind o.class?).map ρ.onClass := by
  change (c.base.map ρ.ofClass).bind o'.class? = _
  rw [Option.bind_map, Option.map_bind]
  exact Option.bind_congr fun id _ => h.class? id

/-- The edge to a class stays the same. -/
theorem edgeTo (c : Class) : o'.edgeTo (ρ.onClass c) = o.edgeTo c := by
  rw [Ontology.edgeTo, Ontology.edgeTo, ← h.packageName]
  rfl

/-- The own properties of a renamed class. -/
theorem properties_onClass (c : Class) :
    (ρ.onClass c).properties.filterMap o'.property? = (c.properties.filterMap o.property?).map ρ.onProperty :=
  h.filterMap_property? c.properties

/-- Classes keep their own properties. -/
theorem ownProperties (id : ClassId) : o'.ownProperties (ρ.ofClass id) = (o.ownProperties id).map ρ.onProperty := by
  rw [Ontology.ownProperties, Ontology.ownProperties, h.class?]
  cases o.class? id with
  | none => rfl
  | some c => exact h.properties_onClass c

/-- Classes are found under the same names. -/
theorem classNamed (name : String) :
    Ontology.classNamed o'.index name = (Ontology.classNamed o.index name).map ρ.ofClass := by
  rw [Ontology.classNamed, Ontology.classNamed, h.index]
  rcases o.index.get? name with _ | _ | _ <;> rfl

end Carries

end Renaming

end OntologyCompiler
