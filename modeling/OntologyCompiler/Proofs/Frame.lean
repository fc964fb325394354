import Mathlib.Data.List.Basic
import OntologyCompiler.Resolution.Build

/-!
# What resolution leaves alone

Resolution writes bases, type targets, imports, associations, external types and diagnostics. All
else of an ontology, its fixed part, is the same before and after every pass, so what is known of
the fixed part of an assembled ontology holds of the resolved one.
-/

namespace OntologyCompiler

/-- The part of a class that no pass changes. -/
def Class.fixed (c : Class) : Class :=
  { c with base := none, decodings := [], imports := ∅, circularImports := ∅ }

/-- The part of a property that no pass changes. -/
def Property.fixed (p : Property) : Property := { p with type := { p.type with target := .unresolved "" } }

/-- The part of a package that no pass changes. -/
def Package.fixed (p : Package) : Package := { p with associatedPackages := ∅, externalTypes := ∅ }

namespace Ontology

/-- The part of an ontology that no pass changes. -/
def fixed (o : Ontology) : Ontology :=
  { o with
    packages := o.packages.map Package.fixed
    classes := o.classes.map Class.fixed
    properties := o.properties.map Property.fixed
    diagnostics := [] }

/-- A change of one class is seen at that class only. -/
theorem class?_modifyClass {o : Ontology} {id c : ClassId} {f : Class → Class} :
    (o.modifyClass id f).class? c = if c = id then (o.class? id).map f else o.class? c := by
  simp only [class?, modifyClass, List.getElem?_modify]
  by_cases h : c = id
  · subst h
    cases o.classes[c.index]? <;> simp
  · have hindex : id.index ≠ c.index := fun heq => h (by cases c; cases id; simpa using heq.symm)
    cases o.classes[c.index]? <;> simp [h, hindex]

/-- What a change of one class keeps of it is kept of all classes. -/
theorem map_classes_modifyClass {β : Type} {o : Ontology} {id : ClassId} {f : Class → Class} {observe : Class → β}
    (h : ∀ c, observe (f c) = observe c) : (o.modifyClass id f).classes.map observe = o.classes.map observe := by
  apply List.ext_getElem?
  intro i
  simp only [modifyClass, List.getElem?_map, List.getElem?_modify]
  cases o.classes[i]? with
  | none => rfl
  | some c => by_cases hi : id.index = i <;> simp [hi, h]

/-- A change of one class that keeps its fixed part keeps that of the ontology. -/
theorem fixed_modifyClass {o : Ontology} {id : ClassId} {f : Class → Class} (h : ∀ c, (f c).fixed = c.fixed) :
    (o.modifyClass id f).fixed = o.fixed := by
  rw [fixed, map_classes_modifyClass h]
  rfl

/-- A finding is not in the fixed part. -/
theorem fixed_report {o : Ontology} {d : Diagnostic} : (o.report d).fixed = o.fixed := rfl

/-- Steps that leave something alone leave it alone together. -/
theorem foldl_keeps {σ α β : Type} {step : σ → α → σ} (observe : σ → β)
    (h : ∀ o a, observe (step o a) = observe o) (l : List α) (o : σ) :
    observe (l.foldl step o) = observe o := by
  induction l generalizing o with
  | nil => rfl
  | cons a l ih => rw [List.foldl_cons, ih, h]

/-- Binding bases keeps the fixed part. -/
theorem fixed_bindBases (o : Ontology) : o.bindBases.fixed = o.fixed := by
  simp [fixed, bindBases, Function.comp_def, bindBase, Class.fixed]

/-- A cut keeps the fixed part. -/
theorem fixed_cutCycleAt (o : Ontology) (id : ClassId) : (o.cutCycleAt id).fixed = o.fixed := by
  unfold cutCycleAt
  split
  · rfl
  · exact fixed_report.trans (fixed_modifyClass fun _ => rfl)

/-- Cutting inheritance cycles keeps the fixed part. -/
theorem fixed_cutInheritanceCycles (o : Ontology) : o.cutInheritanceCycles.fixed = o.fixed :=
  foldl_keeps fixed fixed_cutCycleAt _ o

/-- Binding a type changes its target only. -/
theorem bindType_eq (index : OrderedMap String EntityId) (t : ValueType) :
    ∃ target, bindType index t = { t with target } := by
  unfold bindType
  split
  · exact ⟨t.target, rfl⟩
  · split
    next entity _ => exact ⟨.resolved entity, rfl⟩
    next => exact ⟨t.target, rfl⟩

/-- Binding types keeps the fixed part. -/
theorem fixed_bindTypes (o : Ontology) : o.bindTypes.fixed = o.fixed := by
  have hproperty (p : Property) : ({ p with type := bindType o.index p.type } : Property).fixed = p.fixed := by
    obtain ⟨target, htarget⟩ := bindType_eq o.index p.type
    simp [Property.fixed, htarget]
  simp [fixed, bindTypes, Function.comp_def, hproperty, Class.fixed]

/-- Computing imports keeps the fixed part. -/
theorem fixed_computeImports (o : Ontology) : o.computeImports.fixed = o.fixed := by
  simp [fixed, computeImports, Function.comp_def, Class.fixed]

/-- Deferring one import keeps the fixed part. -/
theorem fixed_deferImport (o : Ontology) (pair : ClassId × ClassId) : (o.deferImport pair).fixed = o.fixed := by
  unfold deferImport
  split
  · dsimp only
    split
    · exact fixed_report.trans (fixed_modifyClass fun _ => rfl)
    · rfl
  · rfl

/-- Breaking circular imports keeps the fixed part. -/
theorem fixed_breakCircularImports (o : Ontology) : o.breakCircularImports.fixed = o.fixed :=
  foldl_keeps fixed fixed_deferImport _ o

/-- Computing associations keeps the fixed part. -/
theorem fixed_computeAssociations (o : Ontology) : o.computeAssociations.fixed = o.fixed := by
  simp [fixed, computeAssociations, Function.comp_def, Package.fixed]

/-- Computing external types keeps the fixed part. -/
theorem fixed_computeExternalTypes (o : Ontology) : o.computeExternalTypes.fixed = o.fixed := by
  simp [fixed, computeExternalTypes, Function.comp_def, Package.fixed]

/-- Reporting package cycles keeps the fixed part. -/
theorem fixed_reportPackageCycles (o : Ontology) : o.reportPackageCycles.fixed = o.fixed := rfl

/-- Resolution keeps the fixed part. -/
theorem fixed_resolve (o : Ontology) : o.resolve.fixed = o.fixed := by
  rw [resolve, fixed_reportPackageCycles, fixed_computeExternalTypes, fixed_computeAssociations,
    fixed_breakCircularImports, fixed_computeImports, fixed_bindTypes, fixed_cutInheritanceCycles,
    fixed_bindBases]

section Observations

variable {o o' : Ontology}

/-- What is seen of the class at a position is fixed where it is seen in the fixed part of a class. -/
theorem map_class?_of_fixed_eq {β : Type} {observe : Class → β} (hobserve : ∀ c, observe c.fixed = observe c)
    (h : o'.fixed = o.fixed) (id : ClassId) : (o'.class? id).map observe = (o.class? id).map observe := by
  have hclasses : o'.classes.map Class.fixed = o.classes.map Class.fixed := (congrArg Ontology.classes h :)
  have hseen (o : Ontology) : (o.class? id).map observe = ((o.classes.map Class.fixed)[id.index]?).map observe := by
    simp only [class?, List.getElem?_map, Option.map_map, Function.comp_def, hobserve]
  rw [hseen, hseen, hclasses]

/-- What is seen of the package at a position is fixed where it is seen in the fixed part of a package. -/
theorem map_package?_of_fixed_eq {β : Type} {observe : Package → β} (hobserve : ∀ p, observe p.fixed = observe p)
    (h : o'.fixed = o.fixed) (id : PackageId) : (o'.package? id).map observe = (o.package? id).map observe := by
  have hpackages : o'.packages.map Package.fixed = o.packages.map Package.fixed := (congrArg Ontology.packages h :)
  have hseen (o : Ontology) :
      (o.package? id).map observe = ((o.packages.map Package.fixed)[id.index]?).map observe := by
    simp only [package?, List.getElem?_map, Option.map_map, Function.comp_def, hobserve]
  rw [hseen, hseen, hpackages]

/-- What is seen of the property at a position is fixed where it is seen in the fixed part of a property. -/
theorem map_property?_of_fixed_eq {β : Type} {observe : Property → β} (hobserve : ∀ p, observe p.fixed = observe p)
    (h : o'.fixed = o.fixed) (id : PropertyId) : (o'.property? id).map observe = (o.property? id).map observe := by
  have hproperties : o'.properties.map Property.fixed = o.properties.map Property.fixed :=
    (congrArg Ontology.properties h :)
  have hseen (o : Ontology) :
      (o.property? id).map observe = ((o.properties.map Property.fixed)[id.index]?).map observe := by
    simp only [property?, List.getElem?_map, Option.map_map, Function.comp_def, hobserve]
  rw [hseen, hseen, hproperties]

/-- A class keeps all but its base, decodings and imports where the ontology keeps its fixed part. -/
theorem exists_class?_of_fixed_eq (h : o'.fixed = o.fixed) {id : ClassId} {c : Class} (hc : o.class? id = some c) :
    ∃ base decodings imports circular, o'.class? id = some
      { c with base := base, decodings := decodings, imports := imports, circularImports := circular } := by
  have hmap := map_class?_of_fixed_eq (fun _ => rfl : ∀ c : Class, c.fixed.fixed = c.fixed) h id
  rw [hc, Option.map_some, Option.map_eq_some_iff] at hmap
  obtain ⟨d, hd, hfixed⟩ := hmap
  refine ⟨d.base, d.decodings, d.imports, d.circularImports, hd.trans (congrArg some ?_)⟩
  exact (congrArg (fun x : Class => { x with
    base := d.base, decodings := d.decodings, imports := d.imports, circularImports := d.circularImports }) hfixed :)

/-- A package keeps all but its associations and external types where the ontology keeps its fixed part. -/
theorem exists_package?_of_fixed_eq (h : o'.fixed = o.fixed) {id : PackageId} {p : Package}
    (hp : o.package? id = some p) : ∃ associated external, o'.package? id = some
      { p with associatedPackages := associated, externalTypes := external } := by
  have hmap := map_package?_of_fixed_eq (fun _ => rfl : ∀ p : Package, p.fixed.fixed = p.fixed) h id
  rw [hp, Option.map_some, Option.map_eq_some_iff] at hmap
  obtain ⟨q, hq, hfixed⟩ := hmap
  refine ⟨q.associatedPackages, q.externalTypes, hq.trans (congrArg some ?_)⟩
  exact (congrArg (fun x : Package => { x with
    associatedPackages := q.associatedPackages, externalTypes := q.externalTypes }) hfixed :)

/-- A property keeps all but the target of its type where the ontology keeps its fixed part. -/
theorem exists_property?_of_fixed_eq (h : o'.fixed = o.fixed) {id : PropertyId} {p : Property}
    (hp : o.property? id = some p) : ∃ target, o'.property? id = some
      { p with type := { p.type with target := target } } := by
  have hmap := map_property?_of_fixed_eq (fun _ => rfl : ∀ p : Property, p.fixed.fixed = p.fixed) h id
  rw [hp, Option.map_some, Option.map_eq_some_iff] at hmap
  obtain ⟨q, hq, hfixed⟩ := hmap
  refine ⟨q.type.target, hq.trans (congrArg some ?_)⟩
  exact (congrArg (fun x : Property => { x with type := { x.type with target := q.type.target } }) hfixed :)

/-- What is said of the fixed part of a class is said of the class at a position where the fixed part is kept. -/
theorem exists_class?_iff_of_fixed_eq (h : o'.fixed = o.fixed) {id : ClassId} {said : Class → Prop}
    (hsaid : ∀ c, said c.fixed ↔ said c) :
    (∃ c, o'.class? id = some c ∧ said c) ↔ ∃ c, o.class? id = some c ∧ said c := by
  have hkeep {o o' : Ontology} (h : o'.fixed = o.fixed) (hall : ∃ c, o.class? id = some c ∧ said c) :
      ∃ c, o'.class? id = some c ∧ said c := by
    obtain ⟨c, hc, hsays⟩ := hall
    obtain ⟨base, decodings, imports, circular, hd⟩ := exists_class?_of_fixed_eq h hc
    -- both classes have the fixed part of `c`
    exact ⟨_, hd, (hsaid _).mp ((hsaid c).mpr hsays)⟩
  exact ⟨hkeep h.symm, hkeep h⟩

/-- Enumerations are in the fixed part. -/
theorem enum?_of_fixed_eq (h : o'.fixed = o.fixed) (id : EnumId) : o'.enum? id = o.enum? id := by
  have henums : o'.enums = o.enums := (congrArg Ontology.enums h :)
  simp only [enum?, henums]

/-- Package names are in the fixed part. -/
theorem packageName_of_fixed_eq (h : o'.fixed = o.fixed) (id : PackageId) :
    o'.packageName id = o.packageName id := by
  rw [packageName, packageName, map_package?_of_fixed_eq (fun _ => rfl) h]

/-- Class names are in the fixed part. -/
theorem className_of_fixed_eq (h : o'.fixed = o.fixed) (id : ClassId) : o'.className id = o.className id := by
  rw [className, className, map_class?_of_fixed_eq (fun _ => rfl) h]

/-- Edges to classes are in the fixed part. -/
theorem edgeTo_of_fixed_eq (h : o'.fixed = o.fixed) : o'.edgeTo = o.edgeTo := by
  funext c
  rw [edgeTo, edgeTo, packageName_of_fixed_eq h]

end Observations

end Ontology

end OntologyCompiler
