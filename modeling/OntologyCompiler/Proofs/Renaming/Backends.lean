import OntologyCompiler.Backend.Selection
import OntologyCompiler.Proofs.Generation.Engine
import OntologyCompiler.Proofs.Renaming.Packages
import OntologyCompiler.Proofs.Renaming.Views

/-!
# Backends on renamed ontologies

The engine stops at packages and types in the order of their names, so a renamed ontology has the renamed stops.
The backends for packages write names and never positions, so at a renamed stop they do the same. Only the
root of the generated package lists packages in an order that depends on more than names.
-/

namespace OntologyCompiler

open Ontology

namespace Renaming

variable {ρ : Renaming} {o o' : Ontology}

/-- A stop with its references renamed. -/
def onVisit (ρ : Renaming) : Visit → Visit
  | .start => .start
  | .ontology => .ontology
  | .package p => .package (ρ.onPackage p)
  | .ofClass c => .ofClass (ρ.onClass c)
  | .ofEnum e => .ofEnum (ρ.onEnum e)
  | .finish => .finish

/-- A generator does the same at a renamed stop. -/
def Blind {σ : Type} (ρ : Renaming) (o o' : Ontology) (g : Generator σ) : Prop :=
  g.isRequired o' = g.isRequired o ∧
    ∀ options v s, g.visit o' options (ρ.onVisit v) s = g.visit o options v s

namespace Carries

variable (h : ρ.Carries o o')

include h

/-- Classes are listed in the same order. -/
theorem sortedClasses (ho' : o'.Distinct) : o'.sortedClasses = o.sortedClasses.map ρ.onClass := by
  apply mergeSort_eq_map_of_perm h.classes.perm
  · exact fun c d => h.typeOrder (c.name, c.package) (d.name, d.package)
  · exact fun c hc d hd => ho'.class_eq_of_typeOrder hc hd

/-- Enumerations are listed in the same order. -/
theorem sortedEnums (ho' : o'.Distinct) : o'.sortedEnums = o.sortedEnums.map ρ.onEnum := by
  apply mergeSort_eq_map_of_perm h.enums.perm
  · exact fun e f => h.typeOrder (e.name, e.package) (f.name, f.package)
  · exact fun e he f hf => ho'.enum_eq_of_typeOrder he hf

/-- The stops are renamed. -/
theorem visits (ho : o.Distinct) (ho' : o'.Distinct) : o'.visits = o.visits.map ρ.onVisit := by
  unfold Ontology.visits
  rw [h.sortedPackages ho.packages, h.sortedClasses ho', h.sortedEnums ho']
  simp only [List.map_append, List.map_map]
  rfl

/-- The package at a renamed stop. -/
theorem visit_package? (v : Visit) : (ρ.onVisit v).package? o' = (v.package? o).map ρ.onPackage := by
  cases v with
  | ofClass c => exact h.package? c.package
  | ofEnum e => exact h.package? e.package
  | package p => rfl
  | start => rfl
  | ontology => rfl
  | finish => rfl

/-- A generator that does the same at renamed stops runs in the same way. -/
theorem execute_eq {σ ω : Type} {g : Generator σ} (hblind : ρ.Blind o o' g) (ho : o.Distinct) (ho' : o'.Distinct)
    (options : GenerationOptions) (w : Writer ω) (s : σ) (k : ω) :
    g.execute o' options w s k = g.execute o options w s k := by
  have hwalk (stops : List Visit) (r : Report) (s : σ) (k : ω) :
      g.walk o' options w (stops.map ρ.onVisit) r s k = g.walk o options w stops r s k := by
    induction stops generalizing r s k with
    | nil => rfl
    | cons v stops ih =>
      have hadd (r : Report) (es : List Emission) : r.add (ρ.onVisit v) es = r.add v es := by cases v <;> rfl
      simp only [List.map_cons, Generator.walk, hblind.2, hadd, ih]
  have hcount : o'.diagnostics.unresolvedCount = o.diagnostics.unresolvedCount := h.diagnostics.countP_eq _
  unfold Generator.execute
  rw [hcount, hblind.1, h.visits ho ho', hwalk]

/-- Modules are written to the same files. -/
theorem emissions (ms : CodeModules) (suffix : String) : ms.emissions o' suffix = ms.emissions o suffix := by
  have hdirectory : CodeModules.directory o' = CodeModules.directory o := by
    rw [CodeModules.directory, CodeModules.directory, h.name_eq, h.version_eq]
  rw [CodeModules.emissions, CodeModules.emissions, hdirectory]

/-- Modules start in the same way. -/
theorem docHeader (title : String) : CodeModule.docHeader o' title = CodeModule.docHeader o title := by
  rw [CodeModule.docHeader, CodeModule.docHeader, h.name_eq, h.version_eq]

/-- Packages are found under the same names. -/
theorem findPackage (ho' : o'.Distinct) (name : String) :
    o'.findPackage name = (o.findPackage name).map ρ.onPackage := by
  cases hfind : o.findPackage name with
  | some p =>
    have hname : p.name = name := by simpa using List.find?_some hfind
    have hmem : ρ.onPackage p ∈ o'.packages := h.packages.mem_iff.mpr ⟨p, List.mem_of_find?_eq_some hfind, rfl⟩
    rw [← hname]
    exact DataModel.findPackage_eq ho'.packages hmem
  | none =>
    apply List.find?_eq_none.mpr
    intro q hq
    obtain ⟨p, hp, rfl⟩ := h.packages.mem_iff.mp hq
    exact List.find?_eq_none.mp hfind p hp

/-- A renamed package has the bases of its classes in the same packages. -/
theorem basePackages (p : Package) : DataModel.basePackages o' (ρ.onPackage p) = DataModel.basePackages o p := by
  have howners : ((ρ.onPackage p).classes.filterMap o'.class?).filterMap (fun c =>
        (c.base.bind o'.class?).map Class.package) =
      ((p.classes.filterMap o.class?).filterMap fun c => (c.base.bind o.class?).map Class.package).map ρ.package := by
    change ((p.classes.map ρ.ofClass).filterMap o'.class?).filterMap _ = _
    rw [h.filterMap_class?, List.filterMap_map, List.map_filterMap]
    exact List.filterMap_congr fun c _ => h.basePackage? c
  have hother :
      ((fun owner => decide (owner ≠ (ρ.onPackage p).id)) ∘ ρ.package) = fun owner => decide (owner ≠ p.id) := by
    funext owner
    change decide (ρ.package owner ≠ ρ.package p.id) = _
    simp only [ne_eq, h.package_inj]
  unfold DataModel.basePackages
  dsimp only
  rw [howners, List.filter_map, List.map_map, hother]
  congr 1
  exact List.map_congr_left fun owner _ => h.packageName owner

/-- Packages derive from each other by the same names. -/
theorem derivesFrom (ho' : o'.Distinct) (package other : String) :
    DataModel.derivesFrom o' package other = DataModel.derivesFrom o package other := by
  unfold DataModel.derivesFrom
  rw [h.findPackage ho']
  cases o.findPackage package with
  | none => rfl
  | some p =>
    change decide (other ∈ DataModel.basePackages o' (ρ.onPackage p)) = _
    rw [h.basePackages]

/-- A renamed type is written in the same way. -/
theorem pythonType (t : ValueType) (package : String) :
    DataModel.pythonType o' (ρ.type t) package = DataModel.pythonType o t package := by
  rcases t with ⟨name, isLinked, alternates, kind | name | e⟩
  · rfl
  · rfl
  · have howner : ((o'.entityPackage? (ρ.entity e)).map o'.packageName).getD "" =
        ((o.entityPackage? e).map o.packageName).getD "" := by
      rw [h.entityPackage?, Option.map_map]
      congr 2
      exact funext h.packageName
    change DataModel.qualify (((o'.entityPackage? (ρ.entity e)).map o'.packageName).getD "") package _ = _
    rw [howner]
    rfl

/-- A renamed class is written in the same way. -/
theorem classText (c : Class) (package : String) :
    DataModel.classText o' (ρ.onClass c) package = DataModel.classText o c package := by
  have hattribute (p : Property) : DataModel.attributeLine o' (ρ.onClass c) package (ρ.onProperty p) =
      DataModel.attributeLine o c package p := by
    have hinitial : DataModel.initialValue o' (ρ.onClass c) (ρ.onProperty p) = DataModel.initialValue o c p := by
      have hconstant : o'.constraintFor (ρ.onClass c).id (ρ.onProperty p).name .constant =
          o.constraintFor c.id p.name .constant :=
        h.constraintFor c.id p.name .constant
      unfold DataModel.initialValue
      rw [hconstant]
      rfl
    unfold DataModel.attributeLine
    rw [hinitial]
    change _ ++ DataModel.pythonType o' (ρ.type p.type) package ++ _ ++ _ ++ _ = _
    rw [h.pythonType]
    rfl
  have hattributes : (o'.visibleProperties (ρ.onClass c).id).map (DataModel.attributeLine o' (ρ.onClass c) package) =
      (o.visibleProperties c.id).map (DataModel.attributeLine o c package) := by
    change (o'.visibleProperties (ρ.ofClass c.id)).map _ = _
    rw [h.visibleProperties, List.map_map]
    exact List.map_congr_left fun p _ => hattribute p
  have hbase : DataModel.baseName o' (ρ.onClass c) package = DataModel.baseName o c package := by
    unfold DataModel.baseName
    rw [h.base_onClass]
    cases c.base.bind o.class? with
    | none => rfl
    | some base =>
      change DataModel.qualify (o'.packageName (ρ.package base.package)) package _ = _
      rw [h.packageName]
      rfl
  unfold DataModel.classText
  rw [hattributes, hbase]
  rfl

/-- Imports are added in the same way. -/
theorem addImport (ho' : o'.Distinct) (package : String) :
    DataModel.addImport o' package = DataModel.addImport o package := by
  funext m e
  unfold DataModel.addImport
  rw [h.derivesFrom ho']

/-- The module of a renamed package starts in the same way. -/
theorem openModule (p : Package) : DataModel.openModule o' (ρ.onPackage p) = DataModel.openModule o p := by
  unfold DataModel.openModule DataModel.header
  rw [h.basePackages, h.docHeader]
  rfl

/-- A renamed class is added to the module in the same way. -/
theorem addClass (ho' : o'.Distinct) (p : Package) (c : Class) :
    DataModel.addClass o' (ρ.onPackage p) (ρ.onClass c) = DataModel.addClass o p c := by
  funext m
  unfold DataModel.addClass
  change CodeModule.push _ ⟨0, (o'.ancestors (ρ.ofClass c.id)).length, _⟩ = _
  rw [h.ancestors, List.length_map, h.addImport ho', h.classText]
  rfl

/-- The data model backend does the same at renamed stops. -/
theorem blind_dataModel (ho' : o'.Distinct) : ρ.Blind o o' DataModel.generator := by
  refine ⟨rfl, fun options v d => ?_⟩
  change DataModel.visit o' options (ρ.onVisit v) d = DataModel.visit o options v d
  unfold DataModel.visit
  rw [h.visit_package?]
  cases v with
  | package p =>
    change ([], { d with modules := d.modules.insert p.name (DataModel.openModule o' (ρ.onPackage p)) }) = _
    rw [h.openModule]
  | ofClass c =>
    cases hp : (Visit.ofClass c).package? o with
    | none => rfl
    | some p =>
      change
        ([], { d with modules := d.modules.update p.name (DataModel.addClass o' (ρ.onPackage p) (ρ.onClass c)) }) = _
      rw [h.addClass ho']
  | ofEnum e => cases hp : (Visit.ofEnum e).package? o <;> rfl
  | finish =>
    change (d.modules.emissions o' DataModel.suffix, _) = _
    rw [h.emissions]
  | start => rfl
  | ontology => rfl

/-- A renamed decoding is written in the same way. -/
theorem ruleLine (package : String) (d : Decoding) :
    DecodingRules.ruleLine o' package (ρ.onDecoding d) = DecodingRules.ruleLine o package d := by
  rcases d with ⟨property, rule, _ | t⟩
  · rfl
  · change _ ++ Json.quote (DataModel.pythonType o' (ρ.type t) package) ++ _ = _
    rw [h.pythonType]
    rfl

/-- The rules of a renamed class are written in the same way. -/
theorem decodingText (c : Class) (package : String) :
    DecodingRules.functionText o' (ρ.onClass c) package = DecodingRules.functionText o c package := by
  have hrules : (o'.allDecodings (ρ.onClass c).id).map (DecodingRules.ruleLine o' package) =
      (o.allDecodings c.id).map (DecodingRules.ruleLine o package) := by
    change (o'.allDecodings (ρ.ofClass c.id)).map _ = _
    rw [h.allDecodings, List.map_map]
    exact List.map_congr_left fun d _ => h.ruleLine package d
  unfold DecodingRules.functionText
  rw [hrules]
  rfl

/-- A renamed class has decodings if the class has. -/
theorem isEmpty_allDecodings (id : ClassId) :
    (o'.allDecodings (ρ.ofClass id)).isEmpty = (o.allDecodings id).isEmpty := by
  rw [h.allDecodings, List.isEmpty_map]

/-- There are as many decodings. -/
theorem decodingCount : o'.decodingCount = o.decodingCount := by
  have hperm := (h.classes.perm.symm.flatMap_right Class.decodings).length_eq
  rw [List.flatMap_map] at hperm
  refine hperm.trans ?_
  simp only [Ontology.decodingCount, List.length_flatMap, onClass, List.length_map]

/-- A renamed package has decodings if the package has. -/
theorem hasDecodings (p : Package) :
    DecodingRules.hasDecodings o' (ρ.onPackage p) = DecodingRules.hasDecodings o p := by
  unfold DecodingRules.hasDecodings
  change (p.classes.map ρ.ofClass).any _ = _
  rw [List.any_map]
  congr 1
  funext id
  rw [Function.comp_apply, h.isEmpty_allDecodings]

/-- The decodings of a renamed package start in the same way. -/
theorem decodingHeader (p : Package) : DecodingRules.header o' (ρ.onPackage p) = DecodingRules.header o p := by
  unfold DecodingRules.header
  rw [h.docHeader]
  rfl

/-- The decoding backend does the same at renamed stops. -/
theorem blind_decodingRules : ρ.Blind o o' DecodingRules.generator := by
  refine ⟨?_, fun options v d => ?_⟩
  · change decide (0 < o'.decodingCount) = decide (0 < o.decodingCount)
    rw [h.decodingCount]
  change DecodingRules.visit o' options (ρ.onVisit v) d = DecodingRules.visit o options v d
  unfold DecodingRules.visit
  rw [h.visit_package?]
  cases v with
  | package p =>
    change (if DecodingRules.hasDecodings o' (ρ.onPackage p) = true then
      ([], { d with modules := d.modules.insert p.name (.new (DecodingRules.header o' (ρ.onPackage p))) }) else _) = _
    rw [h.hasDecodings, h.decodingHeader]
  | ofClass c =>
    cases hp : (Visit.ofClass c).package? o with
    | none => rfl
    | some p =>
      change (if (o'.allDecodings (ρ.ofClass c.id)).isEmpty = true then ([], d) else
        ([], { d with
          modules := d.modules.update p.name fun m =>
            m.push ⟨0, 0, DecodingRules.functionText o' (ρ.onClass c) p.name⟩ })) = _
      rw [h.isEmpty_allDecodings, h.decodingText]
  | ofEnum e => cases hp : (Visit.ofEnum e).package? o <;> rfl
  | finish =>
    change (d.modules.emissions o' DecodingRules.suffix, _) = _
    rw [h.emissions]
  | start => rfl
  | ontology => rfl

/-- The checks of a renamed class are written in the same way. -/
theorem checkText (c : Class) : InstanceChecks.functionText o' (ρ.onClass c) = InstanceChecks.functionText o c := by
  have hlines : (o'.visibleProperties (ρ.onClass c).id).flatMap (InstanceChecks.propertyLines (ρ.onClass c)) =
      (o.visibleProperties c.id).flatMap (InstanceChecks.propertyLines c) := by
    change (o'.visibleProperties (ρ.ofClass c.id)).flatMap _ = _
    rw [h.visibleProperties, List.flatMap_map]
    rfl
  unfold InstanceChecks.functionText
  rw [hlines]
  rfl

/-- A renamed package has concrete classes if the package has. -/
theorem isEmpty_concreteClasses (id : PackageId) :
    (o'.concreteClasses (ρ.package id)).isEmpty = (o.concreteClasses id).isEmpty := by
  have hclasses : o'.classesOf (ρ.package id) = (o.classesOf id).map ρ.onClass := by
    rw [classesOf, classesOf, h.package?]
    cases o.package? id with
    | none => rfl
    | some p => exact h.filterMap_class? p.classes
  rw [concreteClasses, concreteClasses, hclasses, List.filter_map, List.isEmpty_map]
  rfl

/-- The checks of a renamed package start in the same way. -/
theorem checkHeader (p : Package) : InstanceChecks.header o' (ρ.onPackage p) = InstanceChecks.header o p := by
  unfold InstanceChecks.header
  rw [h.docHeader]
  rfl

/-- The checking backend does the same at renamed stops. -/
theorem blind_instanceChecks : ρ.Blind o o' InstanceChecks.generator := by
  refine ⟨rfl, fun options v d => ?_⟩
  change InstanceChecks.visit o' options (ρ.onVisit v) d = InstanceChecks.visit o options v d
  unfold InstanceChecks.visit
  rw [h.visit_package?]
  cases v with
  | package p =>
    change (if (o'.concreteClasses (ρ.package p.id)).isEmpty = true then ([], d) else
      ([], { d with modules := d.modules.insert p.name (.new (InstanceChecks.header o' (ρ.onPackage p))) })) = _
    rw [h.isEmpty_concreteClasses, h.checkHeader]
  | ofClass c =>
    cases hp : (Visit.ofClass c).package? o with
    | none => rfl
    | some p =>
      change (if c.isAbstract = true then ([], d) else
        ([], { d with
          modules := d.modules.update p.name fun m =>
            m.push ⟨0, 0, InstanceChecks.functionText o' (ρ.onClass c)⟩ })) = _
      rw [h.checkText]
  | ofEnum e => cases hp : (Visit.ofEnum e).package? o <;> rfl
  | finish =>
    change (d.modules.emissions o' InstanceChecks.suffix, _) = _
    rw [h.emissions]
  | start => rfl
  | ontology => rfl

/-- A backend for packages does the same at renamed stops. -/
theorem blind (ho' : o'.Distinct) {b : Backend} (hb : b ≠ .packageRoot) : ρ.Blind o o' b.generator := by
  cases b with
  | dataModel => exact h.blind_dataModel ho'
  | decodingRules => exact h.blind_decodingRules
  | instanceChecks => exact h.blind_instanceChecks
  | packageRoot => exact absurd rfl hb

end Carries

end Renaming

end OntologyCompiler
