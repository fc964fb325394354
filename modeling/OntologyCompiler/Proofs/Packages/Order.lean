import OntologyCompiler.Proofs.PackageOrder
import OntologyCompiler.Proofs.Packages.Search
import OntologyCompiler.Proofs.References.WellFormed
import OntologyCompiler.Proofs.Renaming.Packages

/-!
# Packages in the order of their needs

A built ontology has one place for each package id, so the graph of places is the graph of packages, with an edge
from a package to each that it is associated with. Its components, sorted by name, are the groups of the package
order: every package is in one group, the packages of a group reach each other, and no group reaches a later one.
-/

namespace OntologyCompiler

namespace Ontology

/-- A package is associated with another one. -/
def DependsOn (o : Ontology) (p q : PackageId) : Prop := ∃ x, o.package? p = some x ∧ q ∈ x.associatedPackages

/-- A package needs another one, directly or through others. -/
abbrev Reaches (o : Ontology) : PackageId → PackageId → Prop := Relation.ReflTransGen o.DependsOn

/-- Two packages need each other. -/
def Together (o : Ontology) (p q : PackageId) : Prop := o.Reaches p q ∧ o.Reaches q p

/-- Packages are found at their ids and are associated with packages. -/
structure Linked (o : Ontology) : Prop where
  arena : o.Arena
  associated : ∀ {id p}, o.package? id = some p → ∀ q ∈ p.associatedPackages, ∃ x, o.package? q = some x

/-- The package order lists every package, those that need each other side by side and by name, what is needed
first; and the package cycles are the groups of at least two packages that need each other, one finding for each. -/
structure PackagesOrdered (o : Ontology) : Prop where
  perm : o.packageOrder.Perm (o.packages.map Package.id)
  adjacent : ∀ {id p}, o.package? id = some p → ∃ before group after, o.packageOrder = before ++ group ++ after ∧
    (∀ q, q ∈ group ↔ o.Together id q) ∧
      group.Pairwise fun a b => (compare (o.packageName a) (o.packageName b)).isLE = true
  needed_first : ∀ {p q x}, o.package? p = some x → o.Reaches p q → ¬ o.Reaches q p →
    o.packageOrder.idxOf q < o.packageOrder.idxOf p
  cycles : ∃ groups : List (List PackageId),
    o.diagnostics.withCode .packageCycle = groups.map (fun group => .packageCycle (group.map o.packageName)) ∧
      groups.Nodup ∧
      (∀ group ∈ groups, 2 ≤ group.length ∧ group.Nodup ∧ (∃ p ∈ group, ∀ q, q ∈ group ↔ o.Together p q) ∧
        group.Pairwise fun a b => (compare (o.packageName a) (o.packageName b)).isLE = true) ∧
      ∀ {id p q}, o.package? id = some p → q ≠ id → o.Together id q → ∃! group, group ∈ groups ∧ id ∈ group

variable {o : Ontology}

/-- The id of the package at a place of the graph. -/
def idAt (o : Ontology) (place : ℕ) : Option PackageId := (o.sortedPackages[place]?).map Package.id

/-- A place of the graph has a package. -/
theorem exists_idAt {place : ℕ} (h : place ∈ o.packageGraph.nodes) : ∃ p, o.idAt place = some p := by
  have hlt : place < o.sortedPackages.length := List.mem_range.mp h
  exact ⟨o.sortedPackages[place].id, by rw [idAt, List.getElem?_eq_getElem hlt, Option.map_some]⟩

/-- Where a package is, is a place of the graph. -/
theorem mem_nodes_of_idAt {place : ℕ} {p : PackageId} (h : o.idAt place = some p) : place ∈ o.packageGraph.nodes := by
  obtain ⟨x, hx, -⟩ := Option.map_eq_some_iff.mp h
  exact List.mem_range.mpr (List.getElem?_eq_some_iff.mp hx).1

/-- Looking up every place of a list gives the list. -/
theorem filterMap_range_getElem? {α β : Type} (l : List α) (f : α → β) :
    (List.range l.length).filterMap (fun i => (l[i]?).map f) = l.map f := by
  induction l with
  | nil => rfl
  | cons a l ih =>
    simpa [List.range_succ_eq_map, List.filterMap_map, Function.comp_def] using ih

/-- Of two items of a list one comes before the other, if the relation of the earlier to the later excludes the
opposite. -/
theorem exists_append_of_pairwise {α : Type} {l : List α} {R : α → α → Prop} {a b : α} (h : l.Pairwise R) (ha : a ∈ l)
    (hb : b ∈ l) (hne : a ≠ b) (hnot : ¬ R b a) : ∃ before after, l = before ++ after ∧ a ∈ before ∧ b ∈ after := by
  obtain ⟨before, after, rfl⟩ := List.append_of_mem ha
  refine ⟨before ++ [a], after, by simp, by simp, ?_⟩
  rcases List.mem_append.mp hb with hb | hb
  · exact absurd ((List.pairwise_append.mp h).2.2 b hb a List.mem_cons_self) hnot
  · exact (List.mem_cons.mp hb).resolve_left (Ne.symm hne)

/-- What is in the first part of a list has an earlier position than what is not. -/
theorem idxOf_append_lt_idxOf_append {α : Type} [DecidableEq α] {l l' : List α} {a b : α} (ha : a ∈ l) (hb : b ∉ l) :
    (l ++ l').idxOf a < (l ++ l').idxOf b := by
  rw [List.idxOf_append_of_mem ha, List.idxOf_append_of_notMem hb]
  exact (List.idxOf_lt_length_of_mem ha).trans_le (Nat.le_add_right _ _)

/-- The members of a group are the packages at the places of a component. -/
theorem mem_group_iff {C : List ℕ} {q : PackageId} : q ∈ sortOn o.packageName (C.filterMap fun place =>
    (o.sortedPackages[place]?).map Package.id) ↔ ∃ place ∈ C, o.idAt place = some q := by
  rw [perm_sortOn.mem_iff, List.mem_filterMap]
  rfl

/-- The package order holds every package once. -/
theorem perm_packageOrder (o : Ontology) : o.packageOrder.Perm (o.packages.map Package.id) := by
  have hgroups : o.packageOrder.Perm (o.packageGraph.components.flatten.filterMap o.idAt) := by
    rw [packageOrder, packageGroups, ← List.flatMap_def, List.filterMap_flatten, ← List.flatMap_def]
    exact List.Perm.flatMap_left _ fun C _ => perm_sortOn
  have hplaces := Digraph.perm_flatten_components (closed_packageGraph o) List.nodup_range
  have hpackages : o.packageGraph.nodes.filterMap o.idAt = o.sortedPackages.map Package.id :=
    filterMap_range_getElem? _ _
  apply (hgroups.trans (hplaces.filterMap _)).trans
  rw [hpackages]
  exact perm_sortOn.map _

section Places

variable {packages : List Package} {p : Package} {id : PackageId} {place : ℕ}

/-- A package is at a place of its id. -/
theorem mem_places_iff : place ∈ (packages.zipIdx.filter fun entry => entry.1.id = id).map Prod.snd ↔
    ∃ p, packages[place]? = some p ∧ p.id = id := by
  simp only [List.mem_map, List.mem_filter, decide_eq_true_eq, Prod.exists, List.mk_mem_zipIdx_iff_getElem?]
  constructor
  · rintro ⟨p, i, ⟨hp, hid⟩, rfl⟩
    exact ⟨p, hp, hid⟩
  · rintro ⟨p, hp, hid⟩
    exact ⟨p, place, ⟨hp, hid⟩, rfl⟩

variable (hids : (packages.map Package.id).Nodup)

include hids

/-- An id means the place of its package. -/
theorem placeOf?_eq_some_iff : placeOf? packages id = some place ↔ ∃ p, packages[place]? = some p ∧ p.id = id := by
  constructor
  · exact fun h => mem_places_iff.mp (List.mem_of_getLast? h)
  · intro h
    have hmem := mem_places_iff.mpr h
    obtain ⟨last, hlast⟩ := Option.isSome_iff_exists.mp (List.getLast?_isSome.mpr (List.ne_nil_of_mem hmem))
    obtain ⟨p, hp, hid⟩ := h
    obtain ⟨q, hq, hqid⟩ := mem_places_iff.mp (List.mem_of_getLast? hlast)
    rw [placeOf?, hlast, place_eq_of_key_eq hids hq hp (hqid.trans hid.symm)]

/-- What the package at a place needs are the places of the packages that it is associated with, last declared
first. -/
theorem placesNeeded_eq (hp : packages[place]? = some p) :
    placesNeeded packages place = (p.associatedPackages.toList.filterMap (placeOf? packages)).reverse := by
  have hmem := List.mem_of_getElem? hp
  have honly : packages.filter (fun q => q.id = p.id) = [p] := by
    refine List.perm_singleton.mp ((List.perm_ext_iff_of_nodup (hids.of_map.filter _) (List.nodup_singleton p)).mpr ?_)
    intro q
    rw [List.mem_filter, List.mem_singleton, decide_eq_true_eq]
    constructor
    · exact fun hq => List.inj_on_of_nodup_map hids hq.1 hmem hq.2
    · rintro rfl
      exact ⟨hmem, rfl⟩
  rw [placesNeeded, hp]
  dsimp only
  rw [if_pos ((placeOf?_eq_some_iff hids).mpr ⟨p, hp, rfl⟩), honly, List.flatMap_singleton]

end Places

namespace Linked

variable (ho : o.Linked) {p q : PackageId} {v w : ℕ}

include ho

/-- Packages have different ids. -/
theorem nodup_ids : (o.sortedPackages.map Package.id).Nodup := by
  apply (perm_sortOn.map Package.id).nodup_iff.mpr
  exact nodup_map_id PackageId.index fun i p hp => by rw [ho.arena.package_id (show o.package? ⟨i⟩ = some p from hp)]

/-- The packages are at the places of the graph. -/
theorem exists_idAt_iff : (∃ place, o.idAt place = some p) ↔ ∃ x, o.package? p = some x := by
  constructor
  · rintro ⟨place, h⟩
    obtain ⟨x, hx, rfl⟩ := Option.map_eq_some_iff.mp h
    exact ⟨x, ho.arena.package?_of_mem (perm_sortOn.mem_iff.mp (List.mem_of_getElem? hx))⟩
  · rintro ⟨x, hx⟩
    have hmem : x ∈ o.sortedPackages := perm_sortOn.mem_iff.mpr (List.mem_of_getElem? hx)
    obtain ⟨place, hplace⟩ := List.mem_iff_getElem?.mp hmem
    exact ⟨place, by rw [idAt, hplace, Option.map_some, ho.arena.package_id hx]⟩

/-- A package has one place. -/
theorem place_eq_of_idAt_eq (hv : o.idAt v = some p) (hw : o.idAt w = some p) : v = w := by
  obtain ⟨x, hx, hxid⟩ := Option.map_eq_some_iff.mp hv
  obtain ⟨y, hy, hyid⟩ := Option.map_eq_some_iff.mp hw
  exact place_eq_of_key_eq ho.nodup_ids hx hy (hxid.trans hyid.symm)

/-- A place has an edge to another one if its package is associated with the package there. -/
theorem edge_iff (hv : o.idAt v = some p) (hw : o.idAt w = some q) : o.packageGraph.Edge v w ↔ o.DependsOn p q := by
  obtain ⟨x, hx, rfl⟩ := Option.map_eq_some_iff.mp hv
  have hfound := ho.arena.package?_of_mem (perm_sortOn.mem_iff.mp (List.mem_of_getElem? hx))
  rw [edge_packageGraph, placesNeeded_eq ho.nodup_ids hx, List.mem_reverse, List.mem_filterMap]
  constructor
  · rintro ⟨id, hid, hplace⟩
    obtain ⟨y, hy, rfl⟩ := (placeOf?_eq_some_iff ho.nodup_ids).mp hplace
    have hsame : q = y.id := by
      rw [idAt, hy] at hw
      exact (Option.some.inj hw).symm
    exact ⟨x, hfound, hsame ▸ hid⟩
  · rintro ⟨x', hx', hid⟩
    obtain rfl := Option.some.inj (hfound.symm.trans hx')
    obtain ⟨y, hy, rfl⟩ := Option.map_eq_some_iff.mp hw
    exact ⟨y.id, hid, (placeOf?_eq_some_iff ho.nodup_ids).mpr ⟨y, hy, rfl⟩⟩

/-- A place reaches another one if its package needs the package there. -/
theorem reaches_iff (hv : o.idAt v = some p) (hw : o.idAt w = some q) : o.packageGraph.Reaches v w ↔ o.Reaches p q := by
  constructor
  · intro h
    induction h generalizing q with
    | refl =>
      obtain rfl := Option.some.inj (hv.symm.trans hw)
      exact .refl
    | @tail y w hy hedge ih =>
      obtain ⟨x, hx⟩ : ∃ x, o.sortedPackages[y]? = some x := by
        cases hx : o.sortedPackages[y]? with
        | some x => exact ⟨x, rfl⟩
        | none => simp [edge_packageGraph, placesNeeded, hx] at hedge
      have hid : o.idAt y = some x.id := by rw [idAt, hx, Option.map_some]
      exact (ih hid).tail ((ho.edge_iff hid hw).mp hedge)
  · intro h
    induction h generalizing w with
    | refl =>
      obtain rfl := ho.place_eq_of_idAt_eq hv hw
      exact .refl
    | @tail r q hr hedge ih =>
      obtain ⟨place, hplace⟩ := ho.exists_idAt_iff.mpr (hedge.imp fun _ h => h.1)
      exact (ih hplace).tail ((ho.edge_iff hplace hw).mpr hedge)

/-- What a package needs is a package. -/
theorem package?_of_reaches {x : Package} (hp : o.package? p = some x) (h : o.Reaches p q) :
    ∃ y, o.package? q = some y := by
  induction h with
  | refl => exact ⟨x, hp⟩
  | tail _ hedge =>
    obtain ⟨y, hy, hq⟩ := hedge
    exact ho.associated hy _ hq

/-- A group is that of a package: those that it needs and that need it. -/
theorem exists_of_mem_packageGroups {group : List PackageId} (h : group ∈ o.packageGroups) :
    ∃ id x, o.package? id = some x ∧ ∀ q, q ∈ group ↔ o.Together id q := by
  obtain ⟨C, hC, rfl⟩ := List.mem_map.mp h
  obtain ⟨v, hv, rfl⟩ := (Digraph.mem_components_iff (closed_packageGraph o) List.nodup_range).mp hC
  obtain ⟨id, hid⟩ := exists_idAt hv
  obtain ⟨x, hx⟩ := ho.exists_idAt_iff.mp ⟨v, hid⟩
  refine ⟨_, x, hx, fun q => ?_⟩
  have hmem {w : ℕ} : w ∈ o.packageGraph.postorder.filter (o.packageGraph.connected v) ↔
      o.packageGraph.Reaches v w ∧ o.packageGraph.Reaches w v :=
    Digraph.mem_filter_connected (closed_packageGraph o) List.nodup_range hv
  rw [mem_group_iff]
  constructor
  · rintro ⟨w, hw, hq⟩
    exact ⟨(ho.reaches_iff hid hq).mp (hmem.mp hw).1, (ho.reaches_iff hq hid).mp (hmem.mp hw).2⟩
  · intro hq
    obtain ⟨w, hw⟩ := ho.exists_idAt_iff.mpr (ho.package?_of_reaches hx hq.1)
    exact ⟨w, hmem.mpr ⟨(ho.reaches_iff hid hw).mpr hq.1, (ho.reaches_iff hw hid).mpr hq.2⟩, hw⟩

/-- No group reaches a later one. -/
theorem pairwise_packageGroups : o.packageGroups.Pairwise fun C D => ∀ c ∈ C, ∀ d ∈ D, ¬ o.Reaches c d := by
  refine List.pairwise_map.mpr ((Digraph.pairwise_components (closed_packageGraph o) List.nodup_range).imp ?_)
  intro C D happart c hc d hd hcd
  obtain ⟨v, hv, hvc⟩ := mem_group_iff.mp hc
  obtain ⟨w, hw, hwd⟩ := mem_group_iff.mp hd
  exact happart v hv w hw ((ho.reaches_iff hvc hwd).mpr hcd)

/-- A package is in a group, those that it needs and that need it. -/
theorem exists_group {x : Package} (hp : o.package? p = some x) :
    ∃ group ∈ o.packageGroups, ∀ q, q ∈ group ↔ o.Together p q := by
  have hmem : p ∈ o.packageOrder := by
    rw [(perm_packageOrder o).mem_iff, ← ho.arena.package_id hp]
    exact List.mem_map_of_mem (List.mem_of_getElem? hp)
  obtain ⟨group, hgroup, hpgroup⟩ := List.mem_flatten.mp hmem
  obtain ⟨id, -, -, htogether⟩ := ho.exists_of_mem_packageGroups hgroup
  have hidp := (htogether p).mp hpgroup
  refine ⟨group, hgroup, fun q => ?_⟩
  rw [htogether]
  exact ⟨fun hq => ⟨hidp.2.trans hq.1, hq.2.trans hidp.1⟩, fun hq => ⟨hidp.1.trans hq.1, hq.2.trans hidp.2⟩⟩

/-- What is needed and does not need back stands before. -/
theorem idxOf_lt_of_reaches {x : Package} (hp : o.package? p = some x) (hpq : o.Reaches p q) (hqp : ¬ o.Reaches q p) :
    o.packageOrder.idxOf q < o.packageOrder.idxOf p := by
  obtain ⟨y, hy⟩ := ho.package?_of_reaches hp hpq
  obtain ⟨C, hC, hpC⟩ := ho.exists_group hp
  obtain ⟨D, hD, hqD⟩ := ho.exists_group hy
  have hpmem := (hpC p).mpr ⟨.refl, .refl⟩
  have hqmem := (hqD q).mpr ⟨.refl, .refl⟩
  have hne : D ≠ C := by
    rintro rfl
    exact hqp ((hpC q).mp hqmem).2
  obtain ⟨before, after, hsplit, hD, hC⟩ := exists_append_of_pairwise ho.pairwise_packageGroups hD hC hne
    fun happart => happart p hpmem q hqmem hpq
  have hpairs := List.pairwise_append.mp (hsplit ▸ ho.pairwise_packageGroups)
  rw [packageOrder, hsplit, List.flatten_append]
  refine idxOf_append_lt_idxOf_append (List.mem_flatten.mpr ⟨D, hD, hqmem⟩) fun hmem => ?_
  obtain ⟨B, hB, hpB⟩ := List.mem_flatten.mp hmem
  exact hpairs.2.2 B hB C hC p hpB p hpmem .refl

/-- The groups have no package in common and none twice. -/
theorem nodup_flatten_packageGroups : o.packageGroups.flatten.Nodup := by
  have hids := (perm_sortOn.map Package.id).nodup_iff.mp ho.nodup_ids
  exact (perm_packageOrder o).nodup_iff.mpr hids

/-- No group is listed twice. -/
theorem nodup_packageGroups : o.packageGroups.Nodup := by
  apply ho.pairwise_packageGroups.imp_of_mem
  rintro C D hC - happart rfl
  obtain ⟨id, -, -, htogether⟩ := ho.exists_of_mem_packageGroups hC
  have hid := (htogether id).mpr ⟨.refl, .refl⟩
  exact happart id hid id hid .refl

/-- A package is in one group only. -/
theorem group_unique {C D : List PackageId} (hC : C ∈ o.packageGroups) (hD : D ∈ o.packageGroups) (hp : p ∈ C)
    (hp' : p ∈ D) : C = D := by
  -- A package in two groups would lead from the first to the second.
  by_contra hne
  obtain ⟨before, after, hsplit, hC, hD⟩ := exists_append_of_pairwise ho.pairwise_packageGroups hC hD hne
    fun happart => happart p hp' p hp .refl
  have hpairs := List.pairwise_append.mp (hsplit ▸ ho.pairwise_packageGroups)
  exact hpairs.2.2 C hC D hD p hp p hp' .refl

end Linked

/-- A group is listed by name. -/
theorem pairwise_of_mem_packageGroups {group : List PackageId} (h : group ∈ o.packageGroups) :
    group.Pairwise fun a b => (compare (o.packageName a) (o.packageName b)).isLE = true := by
  obtain ⟨C, -, rfl⟩ := List.mem_map.mp h
  exact pairwise_sortOn

/-- The package cycles of a resolved ontology are found last. -/
theorem withCode_packageCycle_resolve (hnone : o.diagnostics = []) :
    o.resolve.diagnostics.withCode .packageCycle = o.resolve.packageCycles.map .packageCycle := by
  let u := o.bindBases.cutInheritanceCycles.bindTypes.computeImports.breakCircularImports.computeAssociations
    |>.computeExternalTypes
  have hbefore : u.diagnostics.withCode .packageCycle = [] := by
    change (Ontology.breakCircularImports _).diagnostics.withCode _ = _
    rw [(extends_breakCircularImports _).withCode_eq (by decide)]
    change (Ontology.bindTypes _).diagnostics.withCode _ = _
    rw [(extends_bindTypes _).withCode_eq (by decide), (extends_cutInheritanceCycles _).withCode_eq (by decide),
      (extends_bindBases _).withCode_eq (by decide), hnone]
    rfl
  have hcode : ∀ d ∈ u.packageCycles.map Diagnostic.packageCycle, d.code = .packageCycle :=
    List.forall_mem_map.mpr fun _ _ => rfl
  change (u.diagnostics ++ u.packageCycles.map Diagnostic.packageCycle).withCode .packageCycle = _
  rw [Diagnostics.withCode_append, hbefore, Diagnostics.withCode_eq_self hcode, List.nil_append]
  rfl

/-- The findings about package cycles name the groups of at least two packages. -/
theorem exists_cycles (o : Ontology) : ∃ groups : List (List PackageId),
    o.packageCycles = groups.map (List.map o.packageName) ∧
      groups.Perm (o.packageGroups.filter fun group => 1 < group.length) := by
  refine ⟨(o.packageGroups.filter fun group => 1 < group.length).mergeSort fun a b =>
    (compare (a.map o.packageName) (b.map o.packageName)).isLE, ?_, List.mergeSort_perm _ _⟩
  rw [packageCycles]
  symm
  apply List.map_mergeSort
  intro a _ b _
  rfl

/-- Linked packages are in order, if the findings about package cycles are those that are reported. -/
theorem Linked.packagesOrdered (ho : o.Linked)
    (hcycles : o.diagnostics.withCode .packageCycle = o.packageCycles.map .packageCycle) : o.PackagesOrdered where
  perm := perm_packageOrder o
  adjacent := by
    intro id p hp
    obtain ⟨group, hgroup, hmem⟩ := ho.exists_group hp
    obtain ⟨before, after, hsplit⟩ := List.append_of_mem hgroup
    exact ⟨before.flatten, group, after.flatten, by simp [packageOrder, hsplit], hmem,
      pairwise_of_mem_packageGroups hgroup⟩
  needed_first := fun hp => ho.idxOf_lt_of_reaches hp
  cycles := by
    obtain ⟨groups, hnames, hperm⟩ := o.exists_cycles
    have hlisted {group : List PackageId} : group ∈ groups ↔ group ∈ o.packageGroups ∧ 1 < group.length := by
      simp [hperm.mem_iff]
    have hnodup := (List.nodup_flatten.mp ho.nodup_flatten_packageGroups).1
    refine ⟨groups, ?_, hperm.nodup_iff.mpr (ho.nodup_packageGroups.filter _), fun group hgroup => ?_, ?_⟩
    · rw [hcycles, hnames, List.map_map]
      rfl
    · obtain ⟨hmem, hlength⟩ := hlisted.mp hgroup
      obtain ⟨id, x, -, htogether⟩ := ho.exists_of_mem_packageGroups hmem
      exact ⟨hlength, hnodup group hmem, ⟨id, (htogether id).mpr ⟨.refl, .refl⟩, htogether⟩,
        pairwise_of_mem_packageGroups hmem⟩
    · intro id p q hp hne hq
      obtain ⟨group, hgroup, hmem⟩ := ho.exists_group hp
      have hid := (hmem id).mpr ⟨.refl, .refl⟩
      have htwo : [q, id] ⊆ group := by simp [(hmem q).mpr hq, hid]
      have hlength := (List.subperm_of_subset (by simpa using hne) htwo).length_le
      refine ⟨group, ⟨hlisted.mpr ⟨hgroup, hlength⟩, hid⟩, fun other hother => ?_⟩
      exact ho.group_unique (hlisted.mp hother.1).1 hgroup hother.2 hid

end Ontology

namespace Schema

variable {s : Schema} {o : Ontology}

/-- The packages of a built ontology are linked. -/
theorem linked_of_build (h : s.build = .ok o) : o.Linked :=
  ⟨arena_of_build h, fun hp _ hq => package?_of_mem_associatedPackages h hp hq⟩

/-- In every built ontology the packages are in the order of their needs, and their cycles are found. -/
theorem packagesOrdered_of_build (h : s.build = .ok o) : o.PackagesOrdered := by
  apply (linked_of_build h).packagesOrdered
  obtain ⟨ps, -, rfl⟩ := build_eq_ok_iff.mp h
  exact Ontology.withCode_packageCycle_resolve rfl

/-- A schema whose packages have one class each, with a required property for the class of each listed package. -/
def basin (packages : List (String × List String)) : Schema :=
  ⟨"basin", "1", "", packages.map fun (name, needs) => ⟨name, some "", some (.ofList [("k",
    .object [("properties", .list (needs.map fun need =>
      .list [.text need, .text (need ++ ".k"), .text "1.1"]))])]), none⟩⟩

/-- A package that needs one of two packages that need each other. -/
theorem basin_packagesOrdered :
    ∃ o, (basin [("beck", ["rill"]), ("rill", ["weir"]), ("weir", ["rill"])]).build = .ok o ∧ o.PackagesOrdered ∧
      o.packageOrder = [⟨1⟩, ⟨2⟩, ⟨0⟩] ∧ (o.diagnostics.withCode .packageCycle).map Diagnostic.message =
        ["packages depend on each other: rill, weir"] := by
  have hbuild : ((basin [("beck", ["rill"]), ("rill", ["weir"]), ("weir", ["rill"])]).build.map fun o =>
      (o.packageOrder, (o.diagnostics.withCode .packageCycle).map Diagnostic.message)) =
        .ok ([⟨1⟩, ⟨2⟩, ⟨0⟩], ["packages depend on each other: rill, weir"]) := by
    cbv
  obtain ⟨o, ho, heq⟩ := Declaration.map_eq_ok.mp hbuild
  exact ⟨o, ho, packagesOrdered_of_build ho, Prod.mk.inj heq⟩

end Schema

end OntologyCompiler
