import OntologyCompiler.Proofs.Distinct
import OntologyCompiler.Proofs.Groups
import OntologyCompiler.Proofs.Loading.Siblings
import OntologyCompiler.Proofs.PackageOrder
import OntologyCompiler.Proofs.Renaming.Passes
import OntologyCompiler.Resolution.Build

/-!
# Packages of renamed ontologies

What packages need is a set of references, which a renaming orders anew. So the graph of packages lists the
same edges in another order, and the groups of packages that need each other are found in another order; sorted
by names they are the same.
-/

namespace OntologyCompiler

open Ontology

variable {ρ : Renaming} {o o' : Ontology}

namespace Renaming.Carries

variable (h : ρ.Carries o o')

include h

/-- A renamed class has its base in the renamed package. -/
theorem basePackage? (c : Class) : o'.basePackage? (ρ.onClass c) = (o.basePackage? c).map ρ.package := by
  rw [Ontology.basePackage?, Ontology.basePackage?, h.base_onClass, Option.map_map, Option.map_map]
  rfl

/-- A renamed class requires the renamed packages. -/
theorem requiredPackages (c : Class) :
    o'.requiredPackages (ρ.onClass c) = (o.requiredPackages c).map ρ.package := by
  rw [Ontology.requiredPackages, Ontology.requiredPackages, h.properties_onClass, List.filter_map, List.filterMap_map,
    List.map_filterMap]
  apply List.filterMap_congr
  intro p hp
  change (ρ.type p.type).entity?.bind o'.entityPackage? = _
  rw [entity?_type, Option.bind_map, Option.map_bind]
  exact Option.bind_congr fun e _ => h.entityPackage? e

/-- A renamed package has the renamed associations. -/
theorem associationsOf (p : Package) :
    o'.associationsOf (ρ.onPackage p) = .ofList ((o.associationsOf p).toList.map ρ.package) := by
  have hreached : ((ρ.onPackage p).classes.filterMap o'.class?).flatMap (fun c =>
        (o'.basePackage? c).toList ++ o'.requiredPackages c) =
      ((p.classes.filterMap o.class?).flatMap fun c =>
        (o.basePackage? c).toList ++ o.requiredPackages c).map ρ.package := by
    change ((p.classes.map ρ.ofClass).filterMap o'.class?).flatMap _ = _
    rw [h.filterMap_class?, List.flatMap_map, List.map_flatMap]
    apply List.flatMap_congr
    intro c hc
    rw [h.basePackage?, h.requiredPackages, List.map_append]
    cases o.basePackage? c <;> rfl
  apply OrderedSet.ext_mem
  intro id
  rw [Ontology.associationsOf, Ontology.associationsOf, hreached, OrderedSet.mem_erase, OrderedSet.mem_ofList,
    OrderedSet.mem_ofList, List.mem_map, List.mem_map]
  change id ≠ ρ.package p.id ∧ _ ↔ _
  constructor
  · rintro ⟨hne, reached, hmem, rfl⟩
    refine ⟨reached, ?_, rfl⟩
    rw [← OrderedSet.mem_iff, OrderedSet.mem_erase, OrderedSet.mem_ofList]
    exact ⟨fun heq => hne (congrArg ρ.package heq), hmem⟩
  · rintro ⟨reached, hmem, rfl⟩
    rw [← OrderedSet.mem_iff, OrderedSet.mem_erase, OrderedSet.mem_ofList] at hmem
    exact ⟨fun heq => hmem.1 (h.package_inj.mp heq), reached, hmem.2, rfl⟩

/-- Computing associations. -/
theorem computeAssociations : ρ.Carries o.computeAssociations o'.computeAssociations :=
  { h with
    packages := by
      apply h.packages.map
      intro p hp
      rw [h.associationsOf]
      rfl }

/-- A renamed property refers to the same type of another package. -/
theorem externalEdge? (home : PackageId) (p : Property) :
    o'.externalEdge? (ρ.package home) (ρ.onProperty p) = o.externalEdge? home p := by
  change (ρ.type p.type).entity?.bind _ = _
  rw [entity?_type, Option.bind_map]
  apply Option.bind_congr
  intro e he
  have hhome : o'.entityPackage? (ρ.entity e) = some (ρ.package home) ↔ o.entityPackage? e = some home := by
    rw [h.entityPackage?, Option.map_eq_some_iff]
    simp [h.package_inj]
  simp only [Function.comp_apply, hhome, h.entityName]

/-- A renamed package refers to the same types of other packages. -/
theorem externalTypesOf (p : Package) : o'.externalTypesOf (ρ.onPackage p) = o.externalTypesOf p := by
  unfold Ontology.externalTypesOf
  change OrderedSet.ofList (((p.classes.map ρ.ofClass).filterMap o'.class?).flatMap _) = _
  rw [h.filterMap_class?, List.flatMap_map]
  congr 1
  apply List.flatMap_congr
  intro c hc
  rw [h.properties_onClass, List.filterMap_map]
  exact List.filterMap_congr fun q _ => h.externalEdge? p.id q

/-- Computing external types. -/
theorem computeExternalTypes : ρ.Carries o.computeExternalTypes o'.computeExternalTypes :=
  { h with
    packages := by
      apply h.packages.map
      intro p hp
      rw [h.externalTypesOf]
      rfl }

/-- Packages are listed in the same order. -/
theorem sortedPackages (hnames : (o.packages.map Package.name).Nodup) :
    o'.sortedPackages = o.sortedPackages.map ρ.onPackage :=
  sortOn_eq_map_of_perm h.packages.perm (fun _ => rfl) hnames

/-- A renamed reference means the same place among renamed packages. -/
theorem placeOf?_map (packages : List Package) (id : PackageId) :
    placeOf? (packages.map ρ.onPackage) (ρ.package id) = placeOf? packages id := by
  unfold placeOf?
  rw [List.zipIdx_map, List.filter_map, List.map_map]
  congr 2
  apply List.filter_congr
  intro entry hentry
  change decide (ρ.package entry.1.id = ρ.package id) = _
  simp only [h.package_inj]

omit h in
/-- A renamed package is associated with the renamed packages. -/
theorem mem_associatedPackages_onPackage {q : Package} {id : PackageId} :
    id ∈ (ρ.onPackage q).associatedPackages.toList ↔ ∃ reached ∈ q.associatedPackages.toList, ρ.package reached = id := by
  rw [← OrderedSet.mem_iff]
  change id ∈ OrderedSet.ofList _ ↔ _
  rw [OrderedSet.mem_ofList, List.mem_map]

/-- The packages with a renamed reference. -/
theorem filter_id_map (packages : List Package) (id : PackageId) :
    (packages.map ρ.onPackage).filter (fun q => q.id = ρ.package id) =
      (packages.filter fun q => q.id = id).map ρ.onPackage := by
  rw [List.filter_map]
  congr 1
  apply List.filter_congr
  intro q hq
  change decide (ρ.package q.id = ρ.package id) = _
  simp only [h.package_inj]

/-- Renamed packages need the same places. -/
theorem mem_placesNeeded_map {packages : List Package} {place needed : ℕ} :
    needed ∈ placesNeeded (packages.map ρ.onPackage) place ↔ needed ∈ placesNeeded packages place := by
  unfold placesNeeded
  rw [List.getElem?_map]
  cases packages[place]? with
  | none => rfl
  | some p =>
    simp only [Option.map_some]
    change needed ∈ (if placeOf? (packages.map ρ.onPackage) (ρ.package p.id) = some place then
      ((((packages.map ρ.onPackage).filter fun q => q.id = ρ.package p.id).flatMap _).filterMap _).reverse else []) ↔ _
    rw [h.placeOf?_map, h.filter_id_map]
    split
    · -- A set of references is in another order after renaming, so only the members agree, not the lists.
      rw [List.flatMap_map, List.mem_reverse, List.mem_reverse, List.mem_filterMap, List.mem_filterMap]
      simp only [List.mem_flatMap, mem_associatedPackages_onPackage]
      constructor
      · rintro ⟨_, ⟨q, hq, reached, hreached, rfl⟩, hplace⟩
        exact ⟨reached, ⟨q, hq, hreached⟩, h.placeOf?_map packages reached ▸ hplace⟩
      · rintro ⟨reached, ⟨q, hq, hreached⟩, hplace⟩
        exact ⟨_, ⟨q, hq, reached, hreached, rfl⟩, (h.placeOf?_map packages reached).trans hplace⟩
    · rfl

end Renaming.Carries

namespace Ontology

/-- The name of the package at a place of the graph. -/
def nameAt (o : Ontology) (place : ℕ) : Option String := (o.sortedPackages[place]?).map fun p => o.packageName p.id

/-- The names of the packages that need a package and are needed by it, sorted. -/
def groupOf (o : Ontology) (place : ℕ) : List String :=
  sortOn id ((o.packageGraph.postorder.filter (o.packageGraph.connected place)).filterMap o.nameAt)

/-- The edges of the graph of packages. -/
theorem edge_packageGraph {v w : ℕ} : o.packageGraph.Edge v w ↔ w ∈ placesNeeded o.sortedPackages v := by
  simp only [Digraph.Edge, packageGraph, List.getElem?_map]
  by_cases hv : v < o.sortedPackages.length
  · simp [hv]
  · simp [hv, placesNeeded]

/-- The names of a group of packages are sorted like the group. -/
theorem map_packageName_group (group : List ℕ) :
    (sortOn o.packageName (group.filterMap fun place => (o.sortedPackages[place]?).map Package.id)).map o.packageName =
      sortOn id (group.filterMap o.nameAt) := by
  have hsorted (ids : List PackageId) :
      (sortOn o.packageName ids).map o.packageName = sortOn id (ids.map o.packageName) :=
    List.map_mergeSort fun _ _ _ _ => rfl
  rw [hsorted, List.map_filterMap]
  simp only [Option.map_map]
  rfl

/-- The packages in name order have different names. -/
theorem Distinct.nodup_sortedPackages (ho : o.Distinct) : (o.sortedPackages.map Package.name).Nodup :=
  (perm_sortOn.map _).nodup_iff.mpr ho.packages

/-- A package in name order is called by its name. -/
theorem Arena.packageName_sortedPackages (ho : o.Arena) {place : ℕ} {p : Package}
    (hp : o.sortedPackages[place]? = some p) : o.packageName p.id = p.name :=
  DataModel.packageName_id ho (perm_sortOn.mem_iff.mp (List.mem_of_getElem? hp))

/-- The places of packages are told apart by their names. -/
theorem eq_of_nameAt_eq (ho : o.Distinct) {v w : ℕ} {name : String} (hv : o.nameAt v = some name)
    (hw : o.nameAt w = some name) : v = w := by
  obtain ⟨p, hp, hpname⟩ := Option.map_eq_some_iff.mp hv
  obtain ⟨q, hq, hqname⟩ := Option.map_eq_some_iff.mp hw
  rw [ho.arena.packageName_sortedPackages hp] at hpname
  rw [ho.arena.packageName_sortedPackages hq] at hqname
  exact place_eq_of_key_eq ho.nodup_sortedPackages hp hq (hpname.trans hqname.symm)

/-- Connected places have one group, others have different groups. -/
theorem connected_iff_groupOf_eq (ho : o.Distinct) {v w : ℕ} (hv : v ∈ o.packageGraph.nodes)
    (hw : w ∈ o.packageGraph.nodes) :
    o.packageGraph.connected v w = true ↔ o.groupOf w = o.groupOf v := by
  have hclosed := closed_packageGraph o
  constructor
  · intro hvw
    have hsame (x : ℕ) : o.packageGraph.connected w x = o.packageGraph.connected v x := by
      rw [Bool.eq_iff_iff]
      exact ⟨Digraph.connected_trans hclosed hv hvw,
        Digraph.connected_trans hclosed hw (Digraph.connected_symm hvw)⟩
    rw [groupOf, groupOf, funext hsame]
  · intro heq
    have hself : o.packageGraph.connected v v = true := (Digraph.connected_iff hclosed hv hv).mpr ⟨.refl, .refl⟩
    obtain ⟨p, hp⟩ : ∃ p, o.sortedPackages[v]? = some p := by
      have hlt : v < o.sortedPackages.length := List.mem_range.mp hv
      exact ⟨_, List.getElem?_eq_getElem hlt⟩
    have hnamed : o.nameAt v = some (o.packageName p.id) := by rw [nameAt, hp]; rfl
    have hmem : o.packageName p.id ∈ o.groupOf v :=
      perm_sortOn.mem_iff.mpr <| List.mem_filterMap.mpr
        ⟨v, List.mem_filter.mpr ⟨Digraph.mem_postorder hv, hself⟩, hnamed⟩
    rw [← heq] at hmem
    obtain ⟨x, hx, hxname⟩ := List.mem_filterMap.mp (perm_sortOn.mem_iff.mp hmem)
    obtain rfl := eq_of_nameAt_eq ho hnamed hxname
    exact Digraph.connected_symm (List.mem_filter.mp hx).2

/-- The groups of packages by names are the groups of the places, each of them once. -/
theorem map_packageGroups (ho : o.Distinct) :
    o.packageGroups.map (List.map o.packageName) = (o.packageGraph.postorder.map o.groupOf).dedup := by
  have hperm := Digraph.perm_postorder (closed_packageGraph o) List.nodup_range
  rw [packageGroups, List.map_map]
  apply Digraph.map_classesAtLast
  · intro v hv
    exact map_packageName_group _
  · intro v hv w hw
    exact connected_iff_groupOf_eq ho (hperm.mem_iff.mp hv) (hperm.mem_iff.mp hw)

/-- The cycles of packages are the groups of places with at least two names, in order. -/
theorem packageCycles_eq (ho : o.Distinct) :
    o.packageCycles =
      sortOn id ((o.packageGraph.postorder.map o.groupOf).dedup.filter fun names => 1 < names.length) := by
  rw [← map_packageGroups ho, List.filter_map]
  simp only [Function.comp_def, List.length_map]
  rfl

end Ontology

namespace Renaming.Carries

variable (h : ρ.Carries o o')

include h

/-- The graph of packages has the same places. -/
theorem nodes_packageGraph (ho : o.Distinct) : o'.packageGraph.nodes = o.packageGraph.nodes := by
  change List.range o'.sortedPackages.length = List.range o.sortedPackages.length
  rw [h.sortedPackages ho.packages, List.length_map]

/-- The graph of packages has the same edges. -/
theorem edge_packageGraph_iff (ho : o.Distinct) {v w : ℕ} : o'.packageGraph.Edge v w ↔ o.packageGraph.Edge v w := by
  rw [edge_packageGraph, edge_packageGraph, h.sortedPackages ho.packages, h.mem_placesNeeded_map]

/-- The packages at the places have the same names. -/
theorem nameAt_eq (ho : o.Distinct) : o'.nameAt = o.nameAt := by
  funext place
  rw [nameAt, nameAt, h.sortedPackages ho.packages, List.getElem?_map, Option.map_map]
  congr 1
  exact funext fun p => h.packageName p.id

/-- Packages that need each other are the same. -/
theorem packageCycles (ho : o.Distinct) (ho' : o'.Distinct) : o'.packageCycles = o.packageCycles := by
  have hnodes := h.nodes_packageGraph ho
  have hperm : o'.packageGraph.postorder.Perm o.packageGraph.postorder := by
    apply (Digraph.perm_postorder (closed_packageGraph o') List.nodup_range).trans
    rw [hnodes]
    exact (Digraph.perm_postorder (closed_packageGraph o) List.nodup_range).symm
  have hgroups : o'.groupOf = o.groupOf := by
    funext place
    rw [groupOf, groupOf, h.nameAt_eq ho, Digraph.connected_eq hnodes fun v w => h.edge_packageGraph_iff ho]
    exact sortOn_id_eq ((hperm.filter _).filterMap _)
  rw [packageCycles_eq ho', packageCycles_eq ho, hgroups]
  exact sortOn_id_eq ((hperm.map _).dedup.filter _)

/-- Reporting cycles of packages. -/
theorem reportPackageCycles (ho : o.Distinct) (ho' : o'.Distinct) :
    ρ.Carries o.reportPackageCycles o'.reportPackageCycles :=
  { h with
    diagnostics := by
      unfold Ontology.reportPackageCycles
      rw [h.packageCycles ho ho']
      exact h.diagnostics.append_right _ }

/-- Resolution does the same to an ontology and to a renamed one. -/
theorem resolve (ho : o.Distinct) (ho' : o'.Distinct) : ρ.Carries o.resolve o'.resolve := by
  have hcut := h.bindBases.cutInheritanceCycles (ho.arena.of_fixed_eq (fixed_bindBases o)).class_names_nodup
  have hfixed : o.bindBases.cutInheritanceCycles.bindTypes.computeImports.fixed = o.fixed := by
    rw [fixed_computeImports, fixed_bindTypes, fixed_cutInheritanceCycles, fixed_bindBases]
  have hbroken := hcut.bindTypes.computeImports.breakCircularImports (ho.arena.of_fixed_eq hfixed).class_names_nodup
  apply hbroken.computeAssociations.computeExternalTypes.reportPackageCycles
  · exact ho.of_fixed_eq (fixed_resolve o)
  · exact ho'.of_fixed_eq (fixed_resolve o')

end Renaming.Carries

end OntologyCompiler
