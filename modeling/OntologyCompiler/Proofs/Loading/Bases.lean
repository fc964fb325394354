import OntologyCompiler.Backend.PackageRoot
import OntologyCompiler.Proofs.Loading.Siblings
import OntologyCompiler.Proofs.PackageOrder

/-!
# Bases first

The root module imports the module of every package in the package order. In this load a package that
holds a base of another one is defined before it, with one exception, which placing imports by pairs of
packages cannot prevent: when the package is started, it imports a third one at its top, and modules
that are not started yet lead from there to the package that derives from it.
-/

namespace OntologyCompiler

namespace DataModel

open ImportGraph

variable {o : Ontology} {p q : Package}

/-- The events of importing the generated package. -/
def loadEvents (o : Ontology) : List (LoadEvent String) := loadTable (importTable o) (PackageRoot.imports o)

/-- Importing the generated package is importing what the root module lists. -/
theorem loads_loadEvents (o : Ontology) : (importGraph o).Loads [] (loadEvents o) (PackageRoot.imports o) :=
  loads_loadTable (importTable o) (PackageRoot.imports o)

/-- When a package is started, it imports a third one at its top, from which modules that are not started
yet lead to another package. -/
def RingAt (o : Ontology) (p q : Package) : Prop :=
  ∃ before after, loadEvents o = before ++ .starts (moduleOf p.name) :: after ∧
    ∃ r ∈ o.packages, r ≠ p ∧ r ≠ q ∧ moduleOf r.name ∈ (importGraph o).top (moduleOf p.name) ∧
      (importGraph o).Reaches (before ++ [.starts (moduleOf p.name)]) [moduleOf r.name] (moduleOf q.name)

variable (ho : o.Importable)

include ho

/-- The root module imports the module of every package. -/
theorem mem_imports_root (hp : p ∈ o.packages) : moduleOf p.name ∈ PackageRoot.imports o := by
  refine List.mem_map.mpr ⟨p.id, Ontology.mem_packageOrder hp, ?_⟩
  rw [packageName_id ho.arena hp]

/-- The module of every package is started. -/
theorem starts_mem_loadEvents (hp : p ∈ o.packages) : .starts (moduleOf p.name) ∈ loadEvents o := by
  have hstarted := (loads_loadEvents o).started _ (mem_imports_root ho hp)
  rwa [List.nil_append] at hstarted

/-- The top of a package leads to one that derives from it through a third one only. -/
theorem topReaches_iff_ringAt (hp : p ∈ o.packages)
    (hnot : moduleOf q.name ∉ (importGraph o).top (moduleOf p.name)) :
    (importGraph o).TopReaches (loadEvents o) (moduleOf p.name) (moduleOf q.name) ↔ RingAt o p q := by
  refine exists_congr fun before => exists_congr fun after => and_congr_right fun _ => ?_
  refine ⟨fun ⟨x, hx, hfree, hpath⟩ => ?_, fun ⟨r, _, _, _, htop, x, hx, hfree, hpath⟩ => ?_⟩
  · obtain ⟨r, hr, hrp, rfl, -⟩ := exists_package_of_mem_top ho hp hx
    have hrq : r ≠ q := fun heq => hnot (heq ▸ hx)
    exact ⟨r, hr, hrp, hrq, hx, _, List.mem_singleton_self _, hfree, hpath⟩
  · obtain rfl := List.mem_singleton.mp hx
    exact ⟨_, htop, hfree, hpath⟩

end DataModel

namespace Schema

open DataModel ImportGraph

/-- In the load of the modules generated for a valid schema without unresolved references, different package
names and no cycle among packages that hold bases of each other, the classes of each package are defined
once. A package that holds a base of another one is defined before it exactly if no third package leads
from the one to the other when it is started. -/
theorem bases_defined_first_iff {s : Schema} {o : Ontology} (hs : s.problems = []) (h : s.build = .ok o)
    (hresolved : o.diagnostics.unresolvedCount = 0)
    (hnames : (o.packages.map OntologyCompiler.Package.name).Nodup) (hacyclic : ∀ id, ¬ Relation.TransGen o.Derives id id) :
    (∀ p ∈ o.packages, (loadEvents o).count (.defines (moduleOf p.name)) = 1) ∧
      ∀ p ∈ o.packages, ∀ q ∈ o.packages, o.Derives q.id p.id →
        (DefinedFirst (loadEvents o) (moduleOf p.name) (moduleOf q.name) ↔ ¬ RingAt o p q) := by
  have ho := importable_of_build hs h hresolved hnames
  have hloads := loads_loadEvents o
  refine ⟨fun p hp => ?_, fun p hp q hq hderives => ?_⟩
  · have hdefined := (hloads.defines_iff _).mpr (starts_mem_loadEvents ho hp)
    exact List.count_eq_one_of_mem hloads.nodup hdefined
  · have hback : ¬ o.Derives p.id q.id := fun hback => hacyclic p.id (.tail (.single hback) hderives)
    have hne : moduleOf p.name ≠ moduleOf q.name := fun heq => by
      obtain rfl := eq_of_moduleOf_eq ho hp hq heq
      exact hderives.1 rfl
    rw [hloads.definedFirst_iff hne (mem_top_of_derives ho hp hq hderives) (starts_mem_loadEvents ho hq),
      topReaches_iff_ringAt ho hp (notMem_top_of_derives ho hp hq hderives hback)]

/-- Packages that hold bases of later ones only do not hold bases of each other. -/
theorem not_transGen_derives {o : Ontology}
    (h : ∀ c ∈ o.classes, ∀ id, o.basePackage? c = some id → id.index ≤ c.package.index) (id : PackageId) :
    ¬ Relation.TransGen o.Derives id id := by
  have hlt {p q : PackageId} (hderives : o.Derives p q) : q.index < p.index := by
    obtain ⟨hne, c, hc, rfl, hbase⟩ := hderives
    have hle := h c hc q hbase
    have hindex : q.index ≠ c.package.index := fun heq => hne (by cases q; cases hp : c.package; simp_all)
    omega
  have hpath {p q : PackageId} (hpath : Relation.TransGen o.Derives p q) : q.index < p.index := by
    induction hpath with
    | single hderives => exact hlt hderives
    | tail _ hderives ih => exact Nat.lt_trans (hlt hderives) ih
  exact fun hcycle => Nat.lt_irrefl _ (hpath hcycle)

/-- What decides the load of an ontology: the bases, the packages, and the imports that classes ask for. -/
def loadFacts (o : Ontology) : List (PackageId × Option PackageId) × Nat × List (PackageId × String) ×
    List String × List (String × List String × List String) :=
  (o.classes.map fun c => (c.package, o.basePackage? c), o.diagnostics.unresolvedCount,
    o.packages.map fun p => (p.id, p.name), PackageRoot.imports o,
    o.sortedPackages.map fun p =>
      let m := (o.namedClasses p.id).foldl (addEdges o p.name) (openModule o p).bare
      (moduleOf p.name, m.topImports.toList, m.tailImports.toList))

/-- A package that holds a base, one that derives from it, and a third one between them in the package order,
which imports the second and is imported by the first if that has properties for it. -/
def valley (properties : List (String × String)) : Schema :=
  let package (name : String) (classes : List (String × Json × List (String × String))) : Package :=
    ⟨name, some "Land.", some (.ofList (classes.map fun (name, base, properties) =>
      (name, .object [("base", base), ("is_abstract", .boolean false), ("properties",
        .list (properties.map fun (name, type) => .list [.text name, .text type, .text "0.1"]))]))), none⟩
  ⟨"valley", "1", "", [
    package "alder" [("grove", .null, properties), ("tree", .null, [])],
    package "brook" [("water", .null, [("bank", "creek.willow")])],
    package "creek" [("willow", .text "alder.tree", [])]]⟩

/-- The packages of the classes in the valley, each with the package of the base. -/
def valleyBases : List (PackageId × Option PackageId) := [(⟨0⟩, none), (⟨0⟩, none), (⟨1⟩, none), (⟨2⟩, some ⟨0⟩)]

/-- The packages of the valley. -/
def valleyPackages : List (PackageId × String) := [(⟨0⟩, "alder"), (⟨1⟩, "brook"), (⟨2⟩, "creek")]

/-- The modules that the valley imports. -/
def valleyRoots : List String := ["alder_typeset", "brook_typeset", "creek_typeset"]

/-- The facts of a valley say that it can be loaded, and in which order that is done. -/
theorem exists_of_loadFacts {properties : List (String × String)}
    {table : List (String × List String × List String)} (hs : (valley properties).problems = [])
    (hfacts : (valley properties).build.map loadFacts = .ok (valleyBases, 0, valleyPackages, valleyRoots, table)) :
    ∃ o, (valley properties).build = .ok o ∧ o.diagnostics.unresolvedCount = 0 ∧
      (o.packages.map OntologyCompiler.Package.name).Nodup ∧ (∀ id, ¬ Relation.TransGen o.Derives id id) ∧
        loadEvents o = loadTable table valleyRoots ∧
          ∃ p ∈ o.packages, ∃ q ∈ o.packages, p.name = "alder" ∧ q.name = "creek" ∧ o.Derives q.id p.id := by
  obtain ⟨o, ho, heq⟩ := Declaration.map_eq_ok.mp hfacts
  simp only [loadFacts, Prod.mk.injEq] at heq
  obtain ⟨hclasses, hresolved, hpackages, hroots, htable⟩ := heq
  have hnames : (o.packages.map OntologyCompiler.Package.name).Nodup := by
    have hlist : o.packages.map OntologyCompiler.Package.name = valleyPackages.map Prod.snd := by
      rw [← hpackages, List.map_map]
      rfl
    rw [hlist]
    decide
  have hevents : loadEvents o = loadTable table valleyRoots := by
    rw [loadEvents, importTable_eq (importable_of_build hs ho hresolved hnames), htable, hroots]
  have hacyclic (id : PackageId) : ¬ Relation.TransGen o.Derives id id := by
    apply not_transGen_derives
    intro c hc base hbase
    have hmem : (c.package, o.basePackage? c) ∈ valleyBases := hclasses ▸ List.mem_map_of_mem hc
    have hall : ∀ e ∈ valleyBases, (e.2.map PackageId.index).getD 0 ≤ e.1.index := by decide
    simpa [hbase] using hall _ hmem
  have hpackage {id : PackageId} {name : String} (he : (id, name) ∈ valleyPackages) :
      ∃ p ∈ o.packages, p.id = id ∧ p.name = name := by
    obtain ⟨p, hp, heq⟩ := List.mem_map.mp (hpackages ▸ he)
    exact ⟨p, hp, Prod.mk.inj heq⟩
  obtain ⟨p, hp, hpid, hpname⟩ := @hpackage ⟨0⟩ "alder" (by decide)
  obtain ⟨q, hq, hqid, hqname⟩ := @hpackage ⟨2⟩ "creek" (by decide)
  have hderives : o.Derives q.id p.id := by
    have hmem : ((⟨2⟩, some ⟨0⟩) : PackageId × Option PackageId) ∈ valleyBases := by decide
    obtain ⟨c, hc, heq⟩ := List.mem_map.mp (hclasses ▸ hmem)
    obtain ⟨hpackage, hbase⟩ := Prod.mk.inj heq
    rw [hpid, hqid]
    exact ⟨by decide, c, hc, hpackage, hbase⟩
  exact ⟨o, ho, hresolved, hnames, hacyclic, hevents, p, hp, q, hq, hpname, hqname, hderives⟩

/-- The third package makes a package be defined before one that holds its base; without the property that
leads there the base comes first. -/
theorem valley_bases_defined_first :
    (∃ o, (valley [("stream", "brook.water")]).build = .ok o ∧ ∃ p ∈ o.packages, ∃ q ∈ o.packages,
        o.Derives q.id p.id ∧ RingAt o p q ∧ ¬ DefinedFirst (loadEvents o) (moduleOf p.name) (moduleOf q.name)) ∧
      ∃ o, (valley []).build = .ok o ∧ ∃ p ∈ o.packages, ∃ q ∈ o.packages,
        o.Derives q.id p.id ∧ ¬ RingAt o p q ∧ DefinedFirst (loadEvents o) (moduleOf p.name) (moduleOf q.name) := by
  have halder : moduleOf "alder" = "alder_typeset" := by cbv
  have hcreek : moduleOf "creek" = "creek_typeset" := by cbv
  constructor
  · have hs : (valley [("stream", "brook.water")]).problems = [] := by decide +kernel
    have hfacts : (valley [("stream", "brook.water")]).build.map loadFacts =
        .ok (valleyBases, 0, valleyPackages, valleyRoots, [("alder_typeset", ["brook_typeset"], []),
          ("brook_typeset", ["creek_typeset"], []), ("creek_typeset", ["alder_typeset"], [])]) := by
      cbv
    obtain ⟨o, ho, hresolved, hnames, hacyclic, hevents, p, hp, q, hq, hpname, hqname, hderives⟩ :=
      exists_of_loadFacts hs hfacts
    have hiff := (bases_defined_first_iff hs ho hresolved hnames hacyclic).2 p hp q hq hderives
    have hlate : ¬ DefinedFirst (loadEvents o) (moduleOf p.name) (moduleOf q.name) := by
      intro hfirst
      rw [hevents, hpname, hqname, halder, hcreek] at hfirst
      have hmem := hfirst [.starts "alder_typeset", .starts "brook_typeset", .starts "creek_typeset"]
        [.defines "brook_typeset", .defines "alder_typeset"] (by cbv)
      simp at hmem
    exact ⟨o, ho, p, hp, q, hq, hderives, not_not.mp (mt hiff.mpr hlate), hlate⟩
  · have hs : (valley []).problems = [] := by decide +kernel
    have hfacts : (valley []).build.map loadFacts =
        .ok (valleyBases, 0, valleyPackages, valleyRoots, [("alder_typeset", [], []),
          ("brook_typeset", ["creek_typeset"], []), ("creek_typeset", ["alder_typeset"], [])]) := by
      cbv
    obtain ⟨o, ho, hresolved, hnames, hacyclic, hevents, p, hp, q, hq, hpname, hqname, hderives⟩ :=
      exists_of_loadFacts hs hfacts
    have hiff := (bases_defined_first_iff hs ho hresolved hnames hacyclic).2 p hp q hq hderives
    have hfirst : DefinedFirst (loadEvents o) (moduleOf p.name) (moduleOf q.name) := by
      have hlist : loadEvents o = [.starts "alder_typeset", .defines "alder_typeset", .starts "brook_typeset",
          .starts "creek_typeset"] ++ .defines "creek_typeset" :: [.defines "brook_typeset"] := by
        rw [hevents]
        cbv
      rw [hpname, hqname, halder, hcreek]
      exact definedFirst_of_append (loads_loadEvents o).nodup hlist (by simp)
    exact ⟨o, ho, p, hp, q, hq, hderives, hiff.mp hfirst, hfirst⟩

end Schema

end OntologyCompiler
