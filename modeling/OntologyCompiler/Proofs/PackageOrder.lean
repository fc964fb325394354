import OntologyCompiler.Proofs.Components
import OntologyCompiler.Proofs.Order
import OntologyCompiler.Resolution.Packages

/-!
# The package order

The graph of packages has their places in name order as nodes, and what a place needs is a place. Every
place is in a component, so every package is in the package order.
-/

namespace OntologyCompiler.Ontology

variable {o : Ontology} {packages : List Package} {p : Package} {id : PackageId} {place : Nat}

/-- Packages that are told apart by a key are at one place. -/
theorem place_eq_of_key_eq {κ : Type} {key : Package → κ} (h : (packages.map key).Nodup) {q : Package} {place' : Nat}
    (hp : packages[place]? = some p) (hq : packages[place']? = some q) (hkey : key p = key q) : place = place' := by
  have hlt : place < (packages.map key).length := by
    simpa using (List.getElem?_eq_some_iff.mp hp).1
  apply (List.getElem?_inj hlt h).mp
  rw [List.getElem?_map, List.getElem?_map, hp, hq, Option.map_some, Option.map_some, hkey]

/-- An id means a place in the list. -/
theorem lt_of_placeOf? (h : placeOf? packages id = some place) : place < packages.length := by
  obtain ⟨⟨q, i⟩, hmem, rfl⟩ := List.mem_map.mp (List.mem_of_getLast? h)
  exact List.snd_lt_of_mem_zipIdx (List.mem_of_mem_filter hmem)

/-- What a place needs is a place in the list. -/
theorem lt_of_mem_placesNeeded {needed : Nat} (h : needed ∈ placesNeeded packages place) :
    needed < packages.length := by
  unfold placesNeeded at h
  split at h
  · cases h
  · split at h
    · obtain ⟨id, -, hid⟩ := List.mem_filterMap.mp (List.mem_reverse.mp h)
      exact lt_of_placeOf? hid
    · cases h

/-- What a place needs is in the graph of packages. -/
theorem closed_packageGraph (o : Ontology) : o.packageGraph.Closed := by
  intro place hplace needed hneeded
  have hlt : place < o.sortedPackages.length := List.mem_range.mp hplace
  have hmem : needed ∈ placesNeeded o.sortedPackages place := by
    simpa [Digraph.Edge, packageGraph, hlt] using hneeded
  exact List.mem_range.mpr (lt_of_mem_placesNeeded hmem)

/-- Every package is in the package order. -/
theorem mem_packageOrder (hp : p ∈ o.packages) : p.id ∈ o.packageOrder := by
  have hsorted : p ∈ o.sortedPackages := perm_sortOn.mem_iff.mpr hp
  obtain ⟨place, hlt, hget⟩ := List.mem_iff_getElem.mp hsorted
  obtain ⟨group, hgroup, hplace⟩ := List.mem_flatten.mp <|
    Digraph.mem_flatten_components (closed_packageGraph o) (List.mem_range.mpr hlt)
  refine List.mem_flatten.mpr ⟨_, List.mem_map.mpr ⟨group, hgroup, rfl⟩, perm_sortOn.mem_iff.mpr ?_⟩
  exact List.mem_filterMap.mpr ⟨place, hplace, by simp [List.getElem?_eq_getElem hlt, hget]⟩

end OntologyCompiler.Ontology
