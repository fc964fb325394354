import OntologyCompiler.Proofs.Distinct
import OntologyCompiler.Proofs.Named
import OntologyCompiler.Proofs.Renaming.Basic

/-!
# Views of renamed ontologies

What a class inherits is found along the bases of the class, and merged and sorted by names. So a renamed class
inherits the same, with references renamed, and by names there is no difference left.
-/

namespace OntologyCompiler

open Ontology

section Lists

variable {α β κ : Type} {key : α → κ} {key' : β → κ} {image : α → β} (hkey : ∀ a, key' (image a) = key a)

include hkey

/-- Sorting images by keys that they keep. -/
theorem sortOn_map [Ord κ] (l : List α) : sortOn key' (l.map image) = (sortOn key l).map image := by
  refine (List.map_mergeSort fun a _ b _ => ?_).symm
  rw [hkey, hkey]

/-- Keeping the first images of each key. -/
theorem keepFirst_map [DecidableEq κ] (l : List α) : keepFirst key' (l.map image) = (keepFirst key l).map image := by
  induction l with
  | nil => rfl
  | cons a l ih =>
    rw [List.map_cons, keepFirst, keepFirst, ih, List.map_cons, List.filter_map]
    simp only [Function.comp_def, hkey]

/-- Merging levels of images. -/
theorem mergeLevels_map [DecidableEq κ] (seen : List κ) (levels : List (List α)) :
    mergeLevels key' seen (levels.map (List.map image)) = (mergeLevels key seen levels).map image := by
  induction levels generalizing seen with
  | nil => rfl
  | cons level levels ih =>
    rw [List.map_cons, mergeLevels, mergeLevels, List.map_append, List.filter_map, List.map_map]
    simp only [Function.comp_def, hkey, ih]

end Lists

namespace Renaming

variable {ρ : Renaming} {o o' : Ontology}

/-- A chain of renamed bases is the renamed chain. -/
theorem baseChain_map {base base' : ClassId → Option ClassId} {move : ClassId → ClassId}
    (hinjective : Function.Injective move) (hbase : ∀ id, base' (move id) = (base id).map move) (fuel : ℕ)
    (seen : List ClassId) (next : Option ClassId) :
    baseChain base' fuel (seen.map move) (next.map move) = (baseChain base fuel seen next).map move := by
  induction fuel generalizing seen next with
  | zero => rfl
  | succ fuel ih =>
    cases next with
    | none => rfl
    | some id =>
      rw [Option.map_some, baseChain, baseChain]
      simp only [List.mem_map_of_injective hinjective]
      by_cases hseen : id ∈ seen
      · rw [if_pos hseen, if_pos hseen]
        rfl
      · rw [if_neg hseen, if_neg hseen, hbase, ← List.map_cons, ih, List.map_cons]

namespace Carries

variable (h : ρ.Carries o o')

include h

/-- A renamed class has the renamed ancestors. -/
theorem ancestors (id : ClassId) : o'.ancestors (ρ.ofClass id) = (o.ancestors id).map ρ.ofClass := by
  have hinjective : Function.Injective ρ.ofClass := fun a b => h.ofClass_inj.mp
  rw [Ontology.ancestors, Ontology.ancestors, h.classes.length_eq, h.base?]
  exact baseChain_map hinjective h.base? _ [id] _

/-- A renamed class has the renamed lineage. -/
theorem lineage (id : ClassId) : o'.lineage (ρ.ofClass id) = (o.lineage id).map ρ.ofClass := by
  rw [Ontology.lineage, Ontology.lineage, h.ancestors, List.map_cons]

/-- A renamed class has the renamed properties. -/
theorem allProperties (id : ClassId) : o'.allProperties (ρ.ofClass id) = (o.allProperties id).map ρ.onProperty := by
  have hown : (o'.lineage (ρ.ofClass id)).flatMap o'.ownProperties =
      ((o.lineage id).flatMap o.ownProperties).map ρ.onProperty := by
    rw [h.lineage, List.flatMap_map, List.map_flatMap]
    exact List.flatMap_congr fun c _ => h.ownProperties c
  have hkey (p : Property) : (ρ.onProperty p).name = p.name := rfl
  rw [Ontology.allProperties, Ontology.allProperties, hown, keepFirst_map hkey, sortOn_map hkey]

/-- A renamed class declares the same constraints. -/
theorem ownConstraints (id : ClassId) : o'.ownConstraints (ρ.ofClass id) = o.ownConstraints id := by
  rw [Ontology.ownConstraints, Ontology.ownConstraints, h.class?, Option.map_map]
  rfl

/-- A renamed class has the same constraints. -/
theorem allConstraints (id : ClassId) : o'.allConstraints (ρ.ofClass id) = o.allConstraints id := by
  have hlevels : (o'.lineage (ρ.ofClass id)).map o'.ownConstraints = (o.lineage id).map o.ownConstraints := by
    rw [h.lineage, List.map_map]
    exact List.map_congr_left fun c _ => h.ownConstraints c
  rw [Ontology.allConstraints, Ontology.allConstraints, hlevels]

/-- A renamed class declares the renamed decodings. -/
theorem ownDecodings (id : ClassId) : o'.ownDecodings (ρ.ofClass id) = (o.ownDecodings id).map ρ.onDecoding := by
  rw [Ontology.ownDecodings, Ontology.ownDecodings, h.class?]
  cases o.class? id <;> rfl

/-- A renamed class has the renamed decodings. -/
theorem allDecodings (id : ClassId) : o'.allDecodings (ρ.ofClass id) = (o.allDecodings id).map ρ.onDecoding := by
  have hlevels : (o'.lineage (ρ.ofClass id)).map o'.ownDecodings =
      ((o.lineage id).map o.ownDecodings).map (List.map ρ.onDecoding) := by
    rw [h.lineage, List.map_map, List.map_map]
    exact List.map_congr_left fun c _ => h.ownDecodings c
  have hkey (d : Decoding) : (ρ.onDecoding d).key = d.key := by
    rw [Decoding.key, Decoding.key, onDecoding, Option.map_map]
    rfl
  have hproperty (d : Decoding) : (ρ.onDecoding d).property = d.property := rfl
  rw [Ontology.allDecodings, Ontology.allDecodings, hlevels, mergeLevels_map hkey, sortOn_map hproperty]

/-- A renamed class has the same constraint on a property. -/
theorem constraintFor (id : ClassId) (property : String) (kind : ConstraintKind) :
    o'.constraintFor (ρ.ofClass id) property kind = o.constraintFor id property kind := by
  rw [Ontology.constraintFor, Ontology.constraintFor, h.allConstraints]

/-- A renamed class has the renamed visible properties. -/
theorem visibleProperties (id : ClassId) :
    o'.visibleProperties (ρ.ofClass id) = (o.visibleProperties id).map ρ.onProperty := by
  rw [Ontology.visibleProperties, Ontology.visibleProperties, h.allProperties, List.filter_map]
  congr 1
  apply List.filter_congr
  intro p hp
  rw [Function.comp_apply, Ontology.isHidden, Ontology.isHidden, h.constraintFor]
  rfl

/-- Types are in the same order. -/
theorem typeOrder (a b : String × PackageId) :
    o'.typeOrder (Prod.map id ρ.package a) (Prod.map id ρ.package b) = o.typeOrder a b := by
  simp only [Ontology.typeOrder, Prod.map_fst, Prod.map_snd, id, h.packageName]

/-- Targets have the same names. -/
theorem namedTarget (t : TypeTarget) : o'.namedTarget (ρ.target t) = o.namedTarget t := by
  rcases t with kind | name | (id | id)
  · rfl
  · rfl
  · exact congrArg NamedTarget.ofClass (h.className id)
  · exact congrArg NamedTarget.ofEnum (h.entityName (.ofEnum id))

/-- Types have the same names. -/
theorem namedType (t : ValueType) : o'.namedType (ρ.type t) = o.namedType t := by
  rw [Ontology.namedType, Ontology.namedType, ← h.namedTarget]
  rfl

/-- Properties are the same by names. -/
theorem namedProperty (p : Property) : o'.namedProperty (ρ.onProperty p) = o.namedProperty p := by
  rw [Ontology.namedProperty, Ontology.namedProperty, ← h.className, ← h.packageName, ← h.namedType]
  rfl

/-- Decodings are the same by names. -/
theorem namedDecoding (d : Decoding) : o'.namedDecoding (ρ.onDecoding d) = o.namedDecoding d := by
  rw [Ontology.namedDecoding, Ontology.namedDecoding, onDecoding, Option.map_map]
  simp only [Function.comp_def, h.namedType]
  
/-- Classes are the same by names. -/
theorem namedClass (c : Class) : o'.namedClass (ρ.onClass c) = o.namedClass c := by
  have hid : (ρ.onClass c).id = ρ.ofClass c.id := rfl
  have hpackage : (ρ.onClass c).package = ρ.package c.package := rfl
  have hbase : (ρ.onClass c).base = c.base.map ρ.ofClass := rfl
  unfold Ontology.namedClass
  rw [hid, hpackage, hbase, h.packageName, h.ancestors, h.ownProperties, h.allProperties, h.allConstraints,
    h.allDecodings]
  simp only [List.map_map, Option.map_map, Function.comp_def, h.className, h.namedProperty, h.namedDecoding]
  rfl

/-- Enumerations are the same by names. -/
theorem namedEnum (e : Enumeration) : o'.namedEnum (ρ.onEnum e) = o.namedEnum e := by
  rw [Ontology.namedEnum, Ontology.namedEnum, ← h.packageName]
  rfl

/-- Packages are the same by names. -/
theorem namedPackage (p : Package) : o'.namedPackage (ρ.onPackage p) = o.namedPackage p := by
  have hclasses : (ρ.onPackage p).classes = p.classes.map ρ.ofClass := rfl
  have henums : (ρ.onPackage p).enums = p.enums.map ρ.ofEnum := rfl
  have hentity (id : EnumId) : o'.entityName (.ofEnum (ρ.ofEnum id)) = o.entityName (.ofEnum id) :=
    h.entityName (.ofEnum id)
  have hassociated : OrderedSet.ofList ((ρ.onPackage p).associatedPackages.toList.map o'.packageName) =
      OrderedSet.ofList (p.associatedPackages.toList.map o.packageName) := by
    apply OrderedSet.ext_mem
    intro name
    simp only [OrderedSet.mem_ofList, List.mem_map, onPackage, ← OrderedSet.mem_iff, exists_exists_and_eq_and,
      h.packageName]
  unfold Ontology.namedPackage
  rw [hclasses, henums, hassociated]
  simp only [List.map_map, Function.comp_def, h.className, hentity]
  rfl

/-- By names there is no difference. -/
theorem named (ho : o.Distinct) : o'.named = o.named := by
  have hpackages : o'.sortedPackages.map o'.namedPackage = o.sortedPackages.map o.namedPackage := by
    rw [Ontology.sortedPackages, Ontology.sortedPackages,
      sortOn_eq_map_of_perm h.packages.perm (fun _ => rfl) ho.packages, List.map_map]
    exact List.map_congr_left fun p _ => h.namedPackage p
  have hclasses : (sortOn Class.qualifiedName o'.classes).map o'.namedClass =
      (sortOn Class.qualifiedName o.classes).map o.namedClass := by
    rw [sortOn_eq_map_of_perm h.classes.perm (fun _ => rfl) ho.arena.class_names_nodup, List.map_map]
    exact List.map_congr_left fun c _ => h.namedClass c
  have henums : (sortOn Enumeration.qualifiedName o'.enums).map o'.namedEnum =
      (sortOn Enumeration.qualifiedName o.enums).map o.namedEnum := by
    rw [sortOn_eq_map_of_perm h.enums.perm (fun _ => rfl) ho.enums, List.map_map]
    exact List.map_congr_left fun e _ => h.namedEnum e
  unfold Ontology.named
  rw [hpackages, hclasses, henums, h.name_eq, h.version_eq, h.doc_eq, Multiset.coe_eq_coe.mpr h.diagnostics]

end Carries

end Renaming

end OntologyCompiler
