import OntologyCompiler.Backend.PackageRoot
import OntologyCompiler.Proofs.Packages.Descent
import OntologyCompiler.Proofs.Packages.Order
import OntologyCompiler.Proofs.Renaming.Independence

/-!
# The package order of reordered declarations

Packages are searched by name, but what a package needs is visited in the order of ids, last declared first. So
the package order does not depend on the order of declarations exactly if no two packages are tied: of every two,
one needs the other, or by name it is needed before the other is. Of two tied packages each comes first if it and
what leads to it are declared last.
-/

namespace OntologyCompiler

namespace Ontology

/-- Some package that needs the first package, or is it, comes by name before all that need the second or are it. -/
def NeededSooner (o : Ontology) (p q : PackageId) : Prop :=
  ∃ r, o.Reaches r p ∧ ∀ t, o.Reaches t q → compare (o.packageName r) (o.packageName t) = .lt

/-- Of every two packages one needs the other or is needed sooner. -/
def Untied (o : Ontology) : Prop := ∀ ⦃p q x y⦄, o.package? p = some x → o.package? q = some y →
  o.Reaches p q ∨ o.Reaches q p ∨ o.NeededSooner p q ∨ o.NeededSooner q p

variable {o : Ontology} {p q : PackageId} {v w : ℕ}

/-- The first places are the least ones. -/
theorem mem_first {first : List ℕ} (h : first <+: o.packageGraph.nodes) (hw : w ∈ first) (hle : v ≤ w) : v ∈ first := by
  have hrange : first = List.range (min first.length o.sortedPackages.length) := by
    rw [← List.take_range]
    exact List.prefix_iff_eq_take.mp h
  rw [hrange, List.mem_range] at hw ⊢
  exact hle.trans_lt hw

namespace Linked

/-- What needs a package has a place of the graph. -/
theorem exists_idAt_of_reaches (ho : o.Linked) (hv : o.idAt v = some p) (h : o.Reaches q p) :
    ∃ w, o.idAt w = some q := by
  rcases h.cases_head with rfl | ⟨r, ⟨x, hx, -⟩, -⟩
  · exact ⟨v, hv⟩
  · exact ho.exists_idAt_iff.mpr ⟨x, hx⟩

/-- What a place needs comes in the opposite order of ids. -/
theorem pairwise_successors (ho : o.Linked) {R : ℕ → ℕ → Prop} (h : ∀ {a b i j}, o.idAt a = some i → o.idAt b = some j →
    i.index < j.index → R b a) (v : ℕ) : (o.packageGraph.successors v).Pairwise R := by
  cases hx : o.sortedPackages[v]? with
  | none =>
    have hempty : o.packageGraph.successors v = [] := by
      simp [packageGraph, List.getElem?_eq_none_iff.mp hx]
    rw [hempty]
    exact .nil
  | some x =>
    have hplaces : o.packageGraph.successors v =
        (x.associatedPackages.toList.filterMap (placeOf? o.sortedPackages)).reverse := by
      rw [← placesNeeded_eq ho.nodup_ids hx]
      simp [packageGraph, (List.getElem?_eq_some_iff.mp hx).1]
    have hidAt {i : PackageId} {a : ℕ} (ha : placeOf? o.sortedPackages i = some a) : o.idAt a = some i := by
      obtain ⟨y, hy, rfl⟩ := (placeOf?_eq_some_iff ho.nodup_ids).mp ha
      rw [idAt, hy, Option.map_some]
    rw [hplaces, List.pairwise_reverse, List.pairwise_filterMap]
    refine x.associatedPackages.ascending.imp fun {i j} hlt a ha b hb => h (hidAt ha) (hidAt hb) ?_
    exact Nat.compare_eq_lt.mp hlt

variable (ho : o.Linked) (hd : o.Distinct) (hv : o.idAt v = some p) (hw : o.idAt w = some q)

include ho hd hv hw

/-- Places come in the order of the names of their packages. -/
theorem lt_iff : v < w ↔ compare (o.packageName p) (o.packageName q) = .lt := by
  obtain ⟨x, hx, rfl⟩ := Option.map_eq_some_iff.mp hv
  obtain ⟨y, hy, rfl⟩ := Option.map_eq_some_iff.mp hw
  have hascending {x y : Package} {v w : ℕ} (hx : o.sortedPackages[v]? = some x) (hy : o.sortedPackages[w]? = some y)
      (hlt : v < w) : compare x.name y.name = .lt := by
    obtain ⟨hv, rfl⟩ := List.getElem?_eq_some_iff.mp hx
    obtain ⟨hw, rfl⟩ := List.getElem?_eq_some_iff.mp hy
    exact List.pairwise_iff_getElem.mp (pairwise_lt_sortOn hd.packages) v w hv hw hlt
  rw [ho.arena.packageName_sortedPackages hx, ho.arena.packageName_sortedPackages hy]
  refine ⟨hascending hx hy, fun hlt => ?_⟩
  rcases lt_trichotomy v w with h | rfl | h
  · exact h
  · obtain rfl := Option.some.inj (hx.symm.trans hy)
    rw [Std.compare_self] at hlt
    cases hlt
  · rw [Std.OrientedCmp.gt_of_lt (hascending hy hx h)] at hlt
    cases hlt

/-- Of two places the package that is needed sooner is reached sooner. -/
theorem sooner_iff : o.packageGraph.Sooner v w ↔ o.NeededSooner p q := by
  constructor
  · rintro ⟨first, hfirst, ⟨u, hu, huv⟩, hnone⟩
    obtain ⟨r, hr⟩ := exists_idAt (hfirst.subset hu)
    refine ⟨r, (ho.reaches_iff hr hv).mp huv, fun t ht => ?_⟩
    obtain ⟨j, hj⟩ := ho.exists_idAt_of_reaches hw ht
    refine (ho.lt_iff hd hr hj).mp (lt_of_not_ge fun hle => ?_)
    exact hnone j (mem_first hfirst hu hle) ((ho.reaches_iff hj hw).mpr ht)
  · rintro ⟨r, hr, hbefore⟩
    obtain ⟨u, hu⟩ := ho.exists_idAt_of_reaches hv hr
    have hmem {j : ℕ} : j ∈ o.packageGraph.nodes.take (u + 1) ↔ j ≤ u := by
      change j ∈ (List.range o.sortedPackages.length).take (u + 1) ↔ _
      have hlt := List.mem_range.mp (mem_nodes_of_idAt hu)
      rw [List.take_range, List.mem_range]
      omega
    refine ⟨_, List.take_prefix (u + 1) _, ⟨u, hmem.mpr le_rfl, (ho.reaches_iff hu hv).mpr hr⟩, fun j hj hjw => ?_⟩
    obtain ⟨t, ht⟩ := exists_idAt (List.mem_of_mem_take hj)
    have hlt := (ho.lt_iff hd hu ht).mpr (hbefore t ((ho.reaches_iff ht hw).mp hjw))
    exact absurd (hmem.mp hj) (not_le_of_gt hlt)

end Linked

/-- Of every two places of untied packages one reaches the other or is reached sooner. -/
theorem Untied.apart (hun : o.Untied) (ho : o.Linked) (hd : o.Distinct) (hv : v ∈ o.packageGraph.nodes)
    (hw : w ∈ o.packageGraph.nodes) : o.packageGraph.Reaches v w ∨ o.packageGraph.Reaches w v ∨
      o.packageGraph.Sooner v w ∨ o.packageGraph.Sooner w v := by
  obtain ⟨p, hp⟩ := exists_idAt hv
  obtain ⟨q, hq⟩ := exists_idAt hw
  obtain ⟨x, hx⟩ := ho.exists_idAt_iff.mp ⟨v, hp⟩
  obtain ⟨y, hy⟩ := ho.exists_idAt_iff.mp ⟨w, hq⟩
  rw [ho.reaches_iff hp hq, ho.reaches_iff hq hp, ho.sooner_iff hd hp hq, ho.sooner_iff hd hq hp]
  exact hun hx hy

/-- The package order by names lists the names of each component. -/
theorem map_packageName_packageOrder (o : Ontology) : o.packageOrder.map o.packageName =
    (o.packageGraph.components.map fun C => sortOn id (C.filterMap o.nameAt)).flatten := by
  rw [packageOrder, List.map_flatten, packageGroups, List.map_map]
  exact congrArg List.flatten (List.map_congr_left fun C _ => map_packageName_group C)

/-- The package order by names lists no name twice. -/
theorem nodup_map_packageOrder (hd : o.Distinct) : (o.packageOrder.map o.packageName).Nodup := by
  have hnames : o.packages.map (o.packageName ∘ Package.id) = o.packages.map Package.name :=
    List.map_congr_left fun x hx => DataModel.packageName_id hd.arena hx
  rw [((perm_packageOrder o).map _).nodup_iff, List.map_map, hnames]
  exact hd.packages

/-- The rank of a name is the distance of its place in the graph of packages to the component of a place. -/
noncomputable def rankTo (o : Ontology) (v : ℕ) (name : String) : ℕ∞ :=
  o.packageGraph.distance v ((o.sortedPackages.map Package.name).idxOf name)

end Ontology

open Ontology

namespace Renaming.Carries

variable {ρ : Renaming} {o o' : Ontology} (h : ρ.Carries o o') (ho : o.Linked) (hd : o.Distinct)

include h hd

/-- The graph of packages has the same edges. -/
theorem edge_packageGraph_eq : o'.packageGraph.Edge = o.packageGraph.Edge :=
  funext fun _ => funext fun _ => propext (h.edge_packageGraph_iff hd)

include ho in
/-- Untied packages come in the same order. -/
theorem map_packageOrder (hun : o.Untied) :
    o'.packageOrder.map o'.packageName = o.packageOrder.map o.packageName := by
  rw [map_packageName_packageOrder, map_packageName_packageOrder, h.nameAt_eq hd]
  refine congrArg List.flatten (Digraph.map_components_eq (closed_packageGraph o) (closed_packageGraph o')
    List.nodup_range (h.nodes_packageGraph hd) (h.edge_packageGraph_eq hd) (fun v hv w hw => hun.apart ho hd hv hw) ?_)
  exact fun C D hperm => sortOn_id_eq (hperm.filterMap _)

section Tied

variable {v w : ℕ} {p q : PackageId} (hv : o.idAt v = some p) (hw : o.idAt w = some q)

include hv

/-- The place of a package has its name. -/
theorem nameAt_of_idAt : o'.nameAt v = some (o.packageName p) := by
  obtain ⟨x, hx, rfl⟩ := Option.map_eq_some_iff.mp hv
  rw [h.nameAt_eq hd, nameAt, hx, Option.map_some]

/-- The names of components have the name of a package if its place is in one of them. -/
theorem packageName_mem_flatten {C : List ℕ} {l : List (List ℕ)} (hvC : v ∈ C) (hC : C ∈ l) :
    o.packageName p ∈ (l.map fun C => sortOn id (C.filterMap o'.nameAt)).flatten := by
  refine List.mem_flatten.mpr ⟨_, List.mem_map_of_mem hC, perm_sortOn.mem_iff.mpr ?_⟩
  exact List.mem_filterMap.mpr ⟨v, hvC, h.nameAt_of_idAt hd hv⟩

include ho hw

/-- Of two packages that do not need each other and of which the second is not needed sooner, the first comes first
if the packages closest to it are visited first. -/
theorem idxOf_lt_of_closestFirst (hd' : o'.Distinct) (hclosest : o'.packageGraph.ClosestFirst v)
    (hpq : ¬ o.Reaches p q) (hqp : ¬ o.Reaches q p) (hsooner : ¬ o.NeededSooner q p) :
    (o'.packageOrder.map o'.packageName).idxOf (o.packageName p) <
      (o'.packageOrder.map o'.packageName).idxOf (o.packageName q) := by
  have hnodes := h.nodes_packageGraph hd
  have hedge := h.edge_packageGraph_eq hd
  have hclosed := closed_packageGraph o'
  rw [← ho.reaches_iff hv hw, ← Digraph.reaches_eq hedge] at hpq
  rw [← ho.reaches_iff hw hv, ← Digraph.reaches_eq hedge] at hqp
  rw [← ho.sooner_iff hd hw hv, ← Digraph.sooner_eq hnodes hedge] at hsooner
  have hvnode : v ∈ o'.packageGraph.nodes := hnodes ▸ mem_nodes_of_idAt hv
  have hwnode : w ∈ o'.packageGraph.nodes := hnodes ▸ mem_nodes_of_idAt hw
  have hpairs := Digraph.pairwise_components_of_closestFirst hclosed hclosest hpq hqp List.nodup_range hvnode hsooner
  obtain ⟨C, hC, hvC⟩ := List.mem_flatten.mp (Digraph.mem_flatten_components hclosed hvnode)
  obtain ⟨D, hD, hwD⟩ := List.mem_flatten.mp (Digraph.mem_flatten_components hclosed hwnode)
  have hne : C ≠ D := by
    rintro rfl
    exact hpq (Digraph.reaches_of_mem_component hclosed List.nodup_range hC hvC hwD)
  obtain ⟨before, after, hsplit, hCbefore, hDafter⟩ := exists_append_of_pairwise hpairs hC hD hne fun happart =>
    happart ⟨hwD, hvC⟩
  have hnodup := nodup_map_packageOrder hd'
  rw [map_packageName_packageOrder, hsplit, List.map_append, List.flatten_append] at hnodup ⊢
  refine idxOf_append_lt_idxOf_append (h.packageName_mem_flatten hd hv hvC hCbefore) fun hmem => ?_
  exact (List.nodup_append.mp hnodup).2.2 _ hmem _ (h.packageName_mem_flatten hd hw hwD hDafter) rfl

end Tied

end Renaming.Carries

namespace Schema

variable {s : Schema} {o o' : Ontology}

/-- A schema with its packages in another order is reordered. -/
theorem reordered_of_perm {packages' : List Package} (h : s.packages.Perm packages') :
    s.Reordered { s with packages := packages' } where
  name_eq := rfl
  version_eq := rfl
  doc_eq := rfl
  packages := (Shuffled.of_perm h).imp fun _ _ heq =>
    heq ▸ ⟨rfl, rfl, List.forall₂_same.mpr fun _ _ => ⟨rfl, rfl, .same _⟩⟩

/-- The schema with its packages declared in descending order of a rank of their names. -/
noncomputable def declaredBy (s : Schema) (rank : String → ℕ∞) : Schema :=
  { s with packages := s.packages.mergeSort fun a b => decide (rank b.name ≤ rank a.name) }

/-- In a built ontology packages that are declared by a rank have ids in descending order of the rank. -/
theorem rank_le_of_declaredBy {rank : String → ℕ∞} (h : (s.declaredBy rank).build = .ok o)
    {x y : OntologyCompiler.Package} {i j : PackageId} (hx : o.package? i = some x) (hy : o.package? j = some y)
    (hlt : i.index < j.index) : rank y.name ≤ rank x.name := by
  have hsorted : ((s.declaredBy rank).packages.map Package.name).Pairwise fun a b => rank b ≤ rank a := by
    refine List.pairwise_map.mpr ((List.pairwise_mergeSort ?_ ?_ _).imp fun hle => of_decide_eq_true hle)
    · intro a b c hab hbc
      exact decide_eq_true ((of_decide_eq_true hbc).trans (of_decide_eq_true hab))
    · intro a b
      simpa using le_total _ _
  rw [← map_name_packages_of_build h, List.pairwise_map] at hsorted
  obtain ⟨hi, rfl⟩ := List.getElem?_eq_some_iff.mp hx
  obtain ⟨hj, rfl⟩ := List.getElem?_eq_some_iff.mp hy
  exact List.pairwise_iff_getElem.mp hsorted i.index j.index hi hj hlt

section Declared

variable (h : s.build = .ok o) (hnames : (s.packages.map Package.name).Nodup) {v w : ℕ} {p q : PackageId}

include h hnames

/-- If packages are declared by their distance to a component, the closest ones are visited first. -/
theorem closestFirst_of_declaredBy (h' : (s.declaredBy (o.rankTo v)).build = .ok o') :
    o'.packageGraph.ClosestFirst v := by
  obtain ⟨ρ, hρ, hd, -⟩ := (reordered_of_perm (List.mergeSort_perm _ _).symm).exists_carries hnames h h'
  have ho' := linked_of_build h'
  have hrank {a : ℕ} {i : PackageId} (ha : o'.idAt a = some i) :
      ∃ x, o'.package? i = some x ∧ o.rankTo v x.name = o.packageGraph.distance v a := by
    obtain ⟨x, hx, rfl⟩ := Option.map_eq_some_iff.mp ha
    refine ⟨x, ho'.arena.package?_of_mem (perm_sortOn.mem_iff.mp (List.mem_of_getElem? hx)), ?_⟩
    rw [hρ.sortedPackages hd.packages, List.getElem?_map] at hx
    obtain ⟨y, hy, rfl⟩ := Option.map_eq_some_iff.mp hx
    obtain ⟨hlt, rfl⟩ := List.getElem?_eq_some_iff.mp hy
    have hplace := hd.nodup_sortedPackages.idxOf_getElem a (by simpa using hlt)
    rw [List.getElem_map] at hplace
    rw [rankTo]
    exact congrArg _ hplace
  intro u
  rw [Digraph.distance_eq (hρ.edge_packageGraph_eq hd)]
  refine ho'.pairwise_successors (fun {a b i j} hi hj hlt => ?_) u
  obtain ⟨x, hx, hxrank⟩ := hrank hi
  obtain ⟨y, hy, hyrank⟩ := hrank hj
  rw [← hxrank, ← hyrank]
  exact rank_le_of_declaredBy h' hx hy hlt

/-- Of two packages that do not need each other and of which the second is not needed sooner, the first comes first
for some order of declarations. -/
theorem exists_perm_idxOf_lt (hv : o.idAt v = some p) (hw : o.idAt w = some q) (hpq : ¬ o.Reaches p q)
    (hqp : ¬ o.Reaches q p) (hsooner : ¬ o.NeededSooner q p) : ∃ packages', s.packages.Perm packages' ∧
      ∀ o', ({ s with packages := packages' } : Schema).build = .ok o' →
        (o'.packageOrder.map o'.packageName).idxOf (o.packageName p) <
          (o'.packageOrder.map o'.packageName).idxOf (o.packageName q) := by
  have hperm : s.packages.Perm (s.declaredBy (o.rankTo v)).packages := (List.mergeSort_perm _ _).symm
  refine ⟨_, hperm, fun o' h' => ?_⟩
  obtain ⟨ρ, hρ, hd, hd'⟩ := (reordered_of_perm hperm).exists_carries hnames h h'
  exact hρ.idxOf_lt_of_closestFirst (linked_of_build h) hd hv hw hd' (closestFirst_of_declaredBy h hnames h') hpq hqp
    hsooner

/-- The package order by names is the same for every order of declarations, and so are the imports of the root
module, exactly if no two packages are tied. -/
theorem packageOrder_unchanged_iff : (∀ packages', s.packages.Perm packages' →
    ∃ o', ({ s with packages := packages' } : Schema).build = .ok o' ∧
      o'.packageOrder.map o'.packageName = o.packageOrder.map o.packageName ∧
        PackageRoot.imports o' = PackageRoot.imports o) ↔ o.Untied := by
  have ho := linked_of_build h
  constructor
  · -- Either of two tied packages comes first for some order of declarations, and there is only one order of names.
    intro hsame p q x y hp hq
    by_contra htied
    push Not at htied
    obtain ⟨hpq, hqp, hpsooner, hqsooner⟩ := htied
    obtain ⟨v, hv⟩ := ho.exists_idAt_iff.mpr ⟨x, hp⟩
    obtain ⟨w, hw⟩ := ho.exists_idAt_iff.mpr ⟨y, hq⟩
    obtain ⟨packages₁, hperm₁, hlt₁⟩ := exists_perm_idxOf_lt h hnames hv hw hpq hqp hqsooner
    obtain ⟨packages₂, hperm₂, hlt₂⟩ := exists_perm_idxOf_lt h hnames hw hv hqp hpq hpsooner
    obtain ⟨o₁, ho₁, hnames₁, -⟩ := hsame packages₁ hperm₁
    obtain ⟨o₂, ho₂, hnames₂, -⟩ := hsame packages₂ hperm₂
    have hlt := hlt₁ o₁ ho₁
    have hgt := hlt₂ o₂ ho₂
    rw [hnames₁] at hlt
    rw [hnames₂] at hgt
    exact absurd hlt (Nat.lt_asymm hgt)
  · intro hun packages' hperm
    have hreordered := reordered_of_perm hperm
    obtain ⟨o', ho'⟩ := hreordered.exists_build ⟨o, h⟩
    obtain ⟨ρ, hρ, hd, -⟩ := hreordered.exists_carries hnames h ho'
    have hsame := hρ.map_packageOrder ho hd hun
    refine ⟨o', ho', hsame, ?_⟩
    have himports (o : Ontology) :
        PackageRoot.imports o = (o.packageOrder.map o.packageName).map DataModel.moduleOf := by
      rw [List.map_map]
      rfl
    rw [himports, himports, hsame]

end Declared

/-- Of two packages that a third one needs, the one declared last comes first. -/
theorem basin_packageOrder : ∃ o o', (basin [("a", ["b", "c"]), ("b", []), ("c", [])]).build = .ok o ∧
    (basin [("a", ["b", "c"]), ("c", []), ("b", [])]).build = .ok o' ∧ ¬ o.Untied ∧
      o.packageOrder.map o.packageName = ["c", "b", "a"] ∧ o'.packageOrder.map o'.packageName = ["b", "c", "a"] := by
  have hbuild : ((basin [("a", ["b", "c"]), ("b", []), ("c", [])]).build.map fun o =>
      o.packageOrder.map o.packageName) = .ok ["c", "b", "a"] := by
    cbv
  have hbuild' : ((basin [("a", ["b", "c"]), ("c", []), ("b", [])]).build.map fun o =>
      o.packageOrder.map o.packageName) = .ok ["b", "c", "a"] := by
    cbv
  obtain ⟨o, ho, hnames⟩ := Declaration.map_eq_ok.mp hbuild
  obtain ⟨o', ho', hnames'⟩ := Declaration.map_eq_ok.mp hbuild'
  refine ⟨o, o', ho, ho', fun hun => ?_, hnames, hnames'⟩
  obtain ⟨o'', ho'', hsame, -⟩ := (packageOrder_unchanged_iff ho (by decide)).mpr hun _ (.cons _ (.swap _ _ []))
  obtain rfl := Except.ok.inj (ho'.symm.trans ho'')
  rw [hnames, hnames'] at hsame
  exact absurd hsame (by decide)

end Schema

end OntologyCompiler
