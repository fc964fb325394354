import OntologyCompiler.Proofs.Loading.Modules
import OntologyCompiler.Proofs.Loading.References
import OntologyCompiler.Proofs.Loading.Trace

/-!
# What data model modules import

The modules of an ontology, known by their names, import each other. A module imports those of the
packages that hold its bases at its top. Of two packages the one that holds a base of the other, and no
base the other way, does not import it at its top. What is imported there is the module of a package.
-/

namespace OntologyCompiler

/-- A class of the first package has its base in the second, which is another one. -/
def Ontology.Derives (o : Ontology) (p q : PackageId) : Prop :=
  p ≠ q ∧ ∃ c ∈ o.classes, c.package = p ∧ o.basePackage? c = some q

/-- What generated modules rely on: packages have different names, and what classes import is in one. -/
structure Ontology.Importable (o : Ontology) : Prop where
  arena : o.Arena
  names_nodup : (o.packages.map Package.name).Nodup
  isName : ∀ p ∈ o.packages, Grammar.isName p.name = true
  exists_package : ∀ c ∈ o.classes, ∀ e, e ∈ c.imports ∨ e ∈ c.circularImports →
    ∃ p ∈ o.packages, p.name = e.package

/-- A built ontology without unresolved references can be imported, if its package names are different. -/
theorem Schema.importable_of_build {s : Schema} {o : Ontology} (hs : s.problems = []) (h : s.build = .ok o)
    (hresolved : o.diagnostics.unresolvedCount = 0)
    (hnames : (o.packages.map OntologyCompiler.Package.name).Nodup) : o.Importable where
  arena := arena_of_build h
  names_nodup := hnames
  isName := isName_of_build hs h
  exists_package := by
    intro c hc e he
    obtain ⟨kept, hkept⟩ := exists_keptPairs_of_build h
    have hclass := (arena_of_build h).class?_of_mem hc
    refine exists_package_of_needs hs h hresolved (hkept.mem_or_mem_iff (c := c.id) |>.mp ?_)
    simpa [Ontology.imports, Ontology.circularImports, hclass] using he

namespace DataModel

/-- The modules by name, with what they import at the top and at the tail. -/
def importTable (o : Ontology) : List (String × List String × List String) :=
  (Backend.dataModel.modules o).entries.map fun e => (moduleOf e.1, e.2.topImports.toList, e.2.tailImports.toList)

/-- What the modules import, by their names. -/
def importGraph (o : Ontology) : ImportGraph String := .ofTable (importTable o)

variable {o : Ontology} {p q : Package} {x : String}

/-- A package is found by its name. -/
theorem findPackage_eq (hnames : (o.packages.map Package.name).Nodup) (hp : p ∈ o.packages) :
    o.findPackage p.name = some p :=
  (find?_eq_some_iff_key hnames fun _ _ => beq_iff_eq).mpr ⟨hp, rfl⟩

section Derivation

variable (ho : o.Arena)

include ho

/-- The name of a package is found at its id. -/
theorem packageName_id (hp : p ∈ o.packages) : o.packageName p.id = p.name := by
  simp [Ontology.packageName, ho.package?_of_mem hp]

/-- What a package derives from is a package. -/
theorem exists_package_of_derives {id base : PackageId} (h : o.Derives id base) :
    ∃ q ∈ o.packages, q.id = base := by
  obtain ⟨-, c, -, -, hbase⟩ := h
  obtain ⟨d, hd, rfl⟩ := Option.map_eq_some_iff.mp hbase
  obtain ⟨b, -, hb⟩ := Option.bind_eq_some_iff.mp hd
  obtain ⟨q, hq⟩ := ho.class_package hb
  exact ⟨q, List.mem_of_getElem? hq, ho.package_id hq⟩

/-- The names of the packages that hold bases are those of the packages that a package derives from. -/
theorem mem_basePackages (hp : p ∈ o.packages) {name : String} :
    name ∈ basePackages o p ↔ ∃ q ∈ o.packages, o.Derives p.id q.id ∧ q.name = name := by
  have hids : name ∈ basePackages o p ↔ ∃ id, o.Derives p.id id ∧ o.packageName id = name := by
    unfold basePackages
    simp only [OrderedSet.mem_ofList, List.mem_map, List.mem_filter, List.mem_filterMap (f := fun c : Class => _),
      ho.mem_filterMap_class?_iff hp, decide_eq_true_eq]
    refine exists_congr fun id => and_congr_left fun _ => ?_
    rw [Ontology.Derives, and_comm, ne_comm]
    refine and_congr_right fun _ => exists_congr fun c => ?_
    rw [and_assoc]
    rfl
  rw [hids]
  constructor
  · rintro ⟨id, hderives, hname⟩
    obtain ⟨q, hq, rfl⟩ := exists_package_of_derives ho hderives
    exact ⟨q, hq, hderives, packageName_id ho hq ▸ hname⟩
  · rintro ⟨q, hq, hderives, hname⟩
    exact ⟨q.id, hderives, (packageName_id ho hq).trans hname⟩

/-- The test by names is whether one package derives from the other. -/
theorem derivesFrom_iff (hnames : (o.packages.map Package.name).Nodup) (hp : p ∈ o.packages)
    (hq : q ∈ o.packages) :
    derivesFrom o p.name q.name = true ↔ o.Derives p.id q.id := by
  simp only [derivesFrom, findPackage_eq hnames hp, decide_eq_true_eq, mem_basePackages ho hp]
  refine ⟨fun h => ?_, fun hderives => ⟨q, hq, hderives, rfl⟩⟩
  obtain ⟨r, hr, hderives, hname⟩ := h
  exact Package.eq_of_name_eq hnames hr hq hname ▸ hderives

end Derivation

section Siblings

variable (ho : o.Importable)

include ho

/-- Different packages have different modules. -/
theorem eq_of_moduleOf_eq (hp : p ∈ o.packages) (hq : q ∈ o.packages)
    (h : moduleOf p.name = moduleOf q.name) : p = q :=
  Package.eq_of_name_eq ho.names_nodup hp hq (moduleOf_injOn (ho.isName p hp) (ho.isName q hq) h)

/-- The imports of the module of a package are found by its name. -/
theorem find?_importTable (hp : p ∈ o.packages) :
    (importTable o).find? (fun entry => entry.1 = moduleOf p.name) =
      some (moduleOf p.name, ((Backend.dataModel.modules o).get p.name).topImports.toList,
        ((Backend.dataModel.modules o).get p.name).tailImports.toList) := by
  have hfind : o.sortedPackages.find? (fun q => decide (moduleOf q.name = moduleOf p.name)) = some p := by
    have hnodup : (o.sortedPackages.map Package.name).Nodup := (perm_sortOn.map _).nodup_iff.mpr ho.names_nodup
    refine (find?_eq_some_iff_key hnodup fun q hq => ?_).mpr ⟨perm_sortOn.mem_iff.mpr hp, rfl⟩
    rw [decide_eq_true_iff]
    exact ⟨moduleOf_injOn (ho.isName q (perm_sortOn.mem_iff.mp hq)) (ho.isName p hp), congrArg moduleOf⟩
  rw [importTable, entries_modules ho.arena ho.names_nodup, List.map_map, List.find?_map]
  change (o.sortedPackages.find? fun q => decide (moduleOf q.name = moduleOf p.name)).map _ = _
  rw [hfind]
  rfl

/-- The imports of the modules come from the edges of the classes. -/
theorem importTable_eq : importTable o = o.sortedPackages.map fun p =>
    let m := (o.namedClasses p.id).foldl (addEdges o p.name) (openModule o p).bare
    (moduleOf p.name, m.topImports.toList, m.tailImports.toList) := by
  rw [importTable, entries_modules ho.arena ho.names_nodup, List.map_map]
  apply List.map_congr_left
  intro p hp
  rw [← bare_get_modules ho.arena ho.names_nodup (perm_sortOn.mem_iff.mp hp)]
  rfl

/-- What a package imports at the top: what it derives from, and what its classes import unless that derives
from it or is deferred. -/
theorem mem_top_moduleOf (hp : p ∈ o.packages) : x ∈ (importGraph o).top (moduleOf p.name) ↔
    (∃ q ∈ o.packages, o.Derives p.id q.id ∧ x = moduleOf q.name) ∨
      (∃ c ∈ o.classes, c.package = p.id ∧ ∃ e ∈ c.imports, LeadsTo o p.name false e x) ∧
        x ∉ ((Backend.dataModel.modules o).get p.name).deferred := by
  have htop : (importGraph o).top (moduleOf p.name) = ((Backend.dataModel.modules o).get p.name).topImports.toList := by
    simp [importGraph, ImportGraph.ofTable, find?_importTable ho hp]
  rw [htop, ← OrderedSet.mem_iff, CodeModule.topImports, OrderedSet.mem_union, OrderedSet.mem_difference,
    eager_get_modules ho.arena ho.names_nodup hp, mem_imports_get_modules ho.arena ho.names_nodup hp,
    OrderedSet.mem_ofList, List.mem_map]
  refine or_congr_left ⟨fun h => ?_, fun h => ?_⟩
  · obtain ⟨name, hname, heq⟩ := h
    obtain ⟨q, hq, hderives, rfl⟩ := (mem_basePackages ho.arena hp).mp hname
    exact ⟨q, hq, hderives, heq.symm⟩
  · obtain ⟨q, hq, hderives, heq⟩ := h
    exact ⟨q.name, (mem_basePackages ho.arena hp).mpr ⟨q, hq, hderives, rfl⟩, heq.symm⟩

/-- What a package imports at the top is a module of another one, which does not derive from it unless it
derives from that. -/
theorem exists_package_of_mem_top (hp : p ∈ o.packages) (h : x ∈ (importGraph o).top (moduleOf p.name)) :
    ∃ q ∈ o.packages, q ≠ p ∧ x = moduleOf q.name ∧ (o.Derives q.id p.id → o.Derives p.id q.id) := by
  rcases (mem_top_moduleOf ho hp).mp h with ⟨q, hq, hderives, heq⟩ | ⟨⟨c, hc, -, e, he, hne, hnot, heq⟩, -⟩
  · exact ⟨q, hq, fun hsame => hderives.1 (hsame ▸ rfl), heq, fun _ => hderives⟩
  · obtain ⟨q, hq, hname⟩ := ho.exists_package c hc e (Or.inl he)
    refine ⟨q, hq, fun hsame => hne (hsame ▸ hname).symm, by rw [heq, hname], fun hderives => ?_⟩
    rw [← hname, (derivesFrom_iff ho.arena ho.names_nodup hq hp).mpr hderives] at hnot
    cases hnot

/-- A package imports what it derives from at the top. -/
theorem mem_top_of_derives (hp : p ∈ o.packages) (hq : q ∈ o.packages) (h : o.Derives q.id p.id) :
    moduleOf p.name ∈ (importGraph o).top (moduleOf q.name) :=
  (mem_top_moduleOf ho hq).mpr (Or.inl ⟨p, hp, h, rfl⟩)

/-- A package does not import at the top what derives from it, unless both derive from each other. -/
theorem notMem_top_of_derives (hp : p ∈ o.packages) (hq : q ∈ o.packages) (h : o.Derives q.id p.id)
    (hnot : ¬ o.Derives p.id q.id) : moduleOf q.name ∉ (importGraph o).top (moduleOf p.name) := by
  intro hmem
  obtain ⟨r, hr, -, heq, hback⟩ := exists_package_of_mem_top ho hp hmem
  obtain rfl := eq_of_moduleOf_eq ho hq hr heq
  exact hnot (hback h)

end Siblings

end DataModel

end OntologyCompiler
