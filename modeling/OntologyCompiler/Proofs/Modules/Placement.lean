import OntologyCompiler.Proofs.Generation.Closure
import OntologyCompiler.Proofs.Modules.Pages

/-!
# Where data model modules import each other

The classes of a package name other packages by their imports and circular imports, and each of these packages is
imported once, whatever class names it first and whether one class imports what another puts off. What the package
derives from comes at the top. Of the rest the tail has what derives from the package and what a class puts off.
-/

namespace OntologyCompiler

namespace Ontology

variable (o : Ontology) (p : Package) (name : String)

/-- A class of the package imports a type from a package of this name. -/
def ImportsFrom : Prop := ∃ c ∈ o.classes, c.package = p.id ∧ ∃ e ∈ c.imports, e.package = name

/-- A class of the package has a circular import of a type from a package of this name. -/
def DefersFrom : Prop := ∃ c ∈ o.classes, c.package = p.id ∧ ∃ e ∈ c.circularImports, e.package = name

/-- The name is that of another package, from which a class of the package imports a type, circularly or not. -/
def Mentions : Prop := name ≠ p.name ∧ (o.ImportsFrom p name ∨ o.DefersFrom p name)

/-- A class of the package has its base in another one, of this name. -/
def DerivesFrom : Prop := ∃ q ∈ o.packages, q.name = name ∧ o.Derives p.id q.id

/-- A class of another package, of this name, has its base in the package. -/
def DerivedIn : Prop := ∃ q ∈ o.packages, q.name = name ∧ o.Derives q.id p.id

end Ontology

/-- The imports of the data model module of a package at their places. -/
structure DataModel.Placed (o : Ontology) (p : Package) (top tail : List String) : Prop where
  top_sorted : top.Pairwise fun x y => compare x y = .lt
  tail_sorted : tail.Pairwise fun x y => compare x y = .lt
  /-- Each package that is mentioned has a module of its own, which is imported once. -/
  once : ∀ name, o.Mentions p name → (top ++ tail).count (name ++ "_typeset") = 1
  /-- Nothing else is imported. -/
  mentioned : ∀ x ∈ top ++ tail, ∃ name, o.Mentions p name ∧ x = name ++ "_typeset"
  /-- What the package derives from is imported at the top. -/
  derived : ∀ name, o.Mentions p name → o.DerivesFrom p name → name ++ "_typeset" ∈ top
  /-- What it does not derive from is imported at the tail if that derives from the package or is put off. -/
  late : ∀ name, o.Mentions p name → ¬ o.DerivesFrom p name → o.DerivedIn p name ∨ o.DefersFrom p name →
    name ++ "_typeset" ∈ tail
  /-- All others are imported at the top. -/
  early : ∀ name, o.Mentions p name → ¬ o.DerivesFrom p name → ¬ (o.DerivedIn p name ∨ o.DefersFrom p name) →
    name ++ "_typeset" ∈ top

namespace Ontology.Named

variable {o : Ontology} {p q : Package} {c : Class} {e : ImportEdge} {name x : String} (ho : o.Named)

include ho

/-- The package of an import has a name. -/
theorem isName_of_mem (hc : c ∈ o.classes) (he : e ∈ c.imports ∨ e ∈ c.circularImports) :
    Grammar.isName e.package = true := ho.isName_of_needs ((ho.needs_iff hc).mpr he)

/-- What is mentioned is what a class needs from another package. -/
theorem mentions_iff : o.Mentions p name ↔
    name ≠ p.name ∧ ∃ c ∈ o.classes, c.package = p.id ∧ ∃ e, o.Needs c.id e ∧ e.package = name := by
  refine and_congr_right fun _ => ⟨?_, ?_⟩
  · rintro (⟨c, hc, hown, e, he, hname⟩ | ⟨c, hc, hown, e, he, hname⟩)
    · exact ⟨c, hc, hown, e, (ho.needs_iff hc).mpr (Or.inl he), hname⟩
    · exact ⟨c, hc, hown, e, (ho.needs_iff hc).mpr (Or.inr he), hname⟩
  · rintro ⟨c, hc, hown, e, hneeds, hname⟩
    rcases (ho.needs_iff hc).mp hneeds with he | he
    · exact Or.inl ⟨c, hc, hown, e, he, hname⟩
    · exact Or.inr ⟨c, hc, hown, e, he, hname⟩

/-- What is mentioned is a name. -/
theorem isName_of_mentions (h : o.Mentions p name) : Grammar.isName name = true := by
  obtain ⟨-, c, -, -, e, hneeds, rfl⟩ := ho.mentions_iff.mp h
  exact ho.isName_of_needs hneeds

/-- The module of what is mentioned. -/
theorem moduleOf_of_mentions (h : o.Mentions p name) : DataModel.moduleOf name = name ++ "_typeset" :=
  DataModel.moduleOf_of_isName (ho.isName_of_mentions h)

/-- What a package derives from is mentioned: a base is imported, circularly or not. -/
theorem mentions_of_derives (hp : p ∈ o.packages) (hq : q ∈ o.packages) (h : o.Derives p.id q.id) :
    o.Mentions p q.name := by
  obtain ⟨hne, c, hc, hown, hbase⟩ := h
  obtain ⟨b, hb, hpackage⟩ := Option.map_eq_some_iff.mp hbase
  obtain ⟨id, hid, hb⟩ := Option.bind_eq_some_iff.mp hb
  have hedge : (o.edge id).package = q.name := by
    rw [edge_eq hb, edgeTo, hpackage]
    exact DataModel.packageName_id ho.arena hq
  have hdifferent : q.name ≠ p.name := fun heq =>
    hne (congrArg Package.id (Package.eq_of_name_eq ho.names_nodup hp hq heq.symm))
  have hneeds : o.Needs c.id (o.edge id) := by
    have hfound := ho.arena.class?_of_mem hc
    refine ⟨fun heq => hdifferent ?_, Or.inl ⟨id, ?_, ⟨b, hb⟩, rfl⟩⟩
    · rw [← hedge, heq, edge_eq hfound, edgeTo, hown]
      exact DataModel.packageName_id ho.arena hp
    · rw [base?, hfound, Option.bind_some, hid]
  exact ho.mentions_iff.mpr ⟨hdifferent, c, hc, hown, o.edge id, hneeds, hedge⟩

/-- The test by names asks whether a package of this name derives from the package. -/
theorem derivesFrom_eq_true_iff (hp : p ∈ o.packages) :
    DataModel.derivesFrom o name p.name = true ↔ o.DerivedIn p name := by
  by_cases hname : ∃ q ∈ o.packages, q.name = name
  · obtain ⟨q, hq, rfl⟩ := hname
    rw [DataModel.derivesFrom_iff ho.arena ho.names_nodup hq hp]
    constructor
    · intro h
      exact ⟨q, hq, rfl, h⟩
    · rintro ⟨r, hr, heq, h⟩
      exact Package.eq_of_name_eq ho.names_nodup hr hq heq ▸ h
  · have hnone : o.findPackage name = none :=
      List.find?_eq_none.mpr fun q hq heq => hname ⟨q, hq, by simpa using heq⟩
    rw [DataModel.derivesFrom, hnone]
    constructor
    · intro h
      cases h
    · rintro ⟨q, hq, heq, -⟩
      exact absurd ⟨q, hq, heq⟩ hname

/-- The modules that are needed when classes are defined are those that the package derives from. -/
theorem moduleOf_mem_eager_iff (hp : p ∈ o.packages) (hname : Grammar.isName name = true) :
    DataModel.moduleOf name ∈ ((Backend.dataModel.modules o).get p.name).eager ↔ o.DerivesFrom p name := by
  rw [DataModel.eager_get_modules ho.arena ho.names_nodup hp, OrderedSet.mem_ofList, List.mem_map]
  constructor
  · rintro ⟨other, hother, heq⟩
    obtain ⟨q, hq, hderives, rfl⟩ := (DataModel.mem_basePackages ho.arena hp).mp hother
    exact ⟨q, hq, DataModel.moduleOf_injOn (ho.isName q hq) hname heq, hderives⟩
  · rintro ⟨q, hq, rfl, hderives⟩
    exact ⟨q.name, (DataModel.mem_basePackages ho.arena hp).mpr ⟨q, hq, hderives, rfl⟩, rfl⟩

/-- The modules imported for a package are those of imports that do not derive from the package. -/
theorem moduleOf_mem_imports_iff (hp : p ∈ o.packages) (hname : Grammar.isName name = true) :
    DataModel.moduleOf name ∈ ((Backend.dataModel.modules o).get p.name).imports ↔
      name ≠ p.name ∧ o.ImportsFrom p name ∧ ¬ o.DerivedIn p name := by
  rw [DataModel.mem_imports_get_modules ho.arena ho.names_nodup hp, ← ho.derivesFrom_eq_true_iff hp]
  constructor
  · rintro ⟨c, hc, hown, e, he, hne, hnot, heq⟩
    obtain rfl := DataModel.moduleOf_injOn hname (ho.isName_of_mem hc (Or.inl he)) heq
    exact ⟨hne, ⟨c, hc, hown, e, he, rfl⟩, by simp [hnot]⟩
  · rintro ⟨hne, ⟨c, hc, hown, e, he, rfl⟩, hnot⟩
    exact ⟨c, hc, hown, e, he, hne, by simpa using hnot, rfl⟩

/-- The modules put off for a package are those of imports that derive from the package, and of circular imports. -/
theorem moduleOf_mem_deferred_iff (hp : p ∈ o.packages) (hname : Grammar.isName name = true) :
    DataModel.moduleOf name ∈ ((Backend.dataModel.modules o).get p.name).deferred ↔
      name ≠ p.name ∧ (o.ImportsFrom p name ∧ o.DerivedIn p name ∨ o.DefersFrom p name) := by
  rw [DataModel.mem_deferred_get_modules ho.arena ho.names_nodup hp, ← ho.derivesFrom_eq_true_iff hp]
  constructor
  · rintro ⟨c, hc, hown, ⟨e, he, hne, hderives, heq⟩ | ⟨e, he, hne, heq⟩⟩
    · obtain rfl := DataModel.moduleOf_injOn hname (ho.isName_of_mem hc (Or.inl he)) heq
      exact ⟨hne, Or.inl ⟨⟨c, hc, hown, e, he, rfl⟩, hderives⟩⟩
    · obtain rfl := DataModel.moduleOf_injOn hname (ho.isName_of_mem hc (Or.inr he)) heq
      exact ⟨hne, Or.inr ⟨c, hc, hown, e, he, rfl⟩⟩
  · rintro ⟨hne, ⟨⟨c, hc, hown, e, he, rfl⟩, hderives⟩ | ⟨c, hc, hown, e, he, rfl⟩⟩
    · exact ⟨c, hc, hown, Or.inl ⟨e, he, hne, hderives, rfl⟩⟩
    · exact ⟨c, hc, hown, Or.inr ⟨e, he, hne, rfl⟩⟩

/-- What a module imports is what its package mentions. -/
theorem mem_top_or_tail_iff (hp : p ∈ o.packages) :
    x ∈ ((Backend.dataModel.modules o).get p.name).topImports ∨
        x ∈ ((Backend.dataModel.modules o).get p.name).tailImports ↔
      ∃ name, o.Mentions p name ∧ x = DataModel.moduleOf name := by
  rw [Source.mem_top_or_tail, ho.mem_sets_iff hp]
  constructor
  · rintro (⟨q, hq, hderives, rfl⟩ | ⟨c, hc, hown, e, hneeds, hne, rfl⟩)
    · exact ⟨q.name, ho.mentions_of_derives hp hq hderives, rfl⟩
    · exact ⟨e.package, ho.mentions_iff.mpr ⟨hne, c, hc, hown, e, hneeds, rfl⟩, rfl⟩
  · rintro ⟨name, hmentions, rfl⟩
    obtain ⟨hne, c, hc, hown, e, hneeds, rfl⟩ := ho.mentions_iff.mp hmentions
    exact Or.inr ⟨c, hc, hown, e, hneeds, hne, rfl⟩

/-- A mentioned package is imported at the top if the package derives from it, or if it neither derives from the
package nor is put off. -/
theorem moduleOf_mem_top_iff (hp : p ∈ o.packages) (h : o.Mentions p name) :
    DataModel.moduleOf name ∈ ((Backend.dataModel.modules o).get p.name).topImports ↔
      o.DerivesFrom p name ∨ ¬ (o.DerivedIn p name ∨ o.DefersFrom p name) := by
  have hname := ho.isName_of_mentions h
  have hmentioned := h.2
  rw [CodeModule.topImports, OrderedSet.mem_union, OrderedSet.mem_difference, ho.moduleOf_mem_eager_iff hp hname,
    ho.moduleOf_mem_imports_iff hp hname, ho.moduleOf_mem_deferred_iff hp hname]
  simp only [h.1, ne_eq, not_false_iff, true_and]
  refine or_congr_right ⟨?_, fun hearly => ?_⟩
  · rintro ⟨⟨-, hbefore⟩, hearly⟩ hlate
    exact hlate.elim hbefore fun hdefers => hearly (Or.inr hdefers)
  · have himports := hmentioned.resolve_right fun hdefers => hearly (Or.inr hdefers)
    exact ⟨⟨himports, fun hbefore => hearly (Or.inl hbefore)⟩, fun hlate => hearly (hlate.imp And.right id)⟩

/-- The imports of a data model module stand at their places. -/
theorem placed_page (hp : p ∈ o.packages) :
    DataModel.Placed o p (Backend.dataModel.page o p).top (Backend.dataModel.page o p).tail := by
  let m := (Backend.dataModel.modules o).get p.name
  have hsibling {x : String} : x ∈ m.topImports.toList ++ m.tailImports.toList ↔
      ∃ name, o.Mentions p name ∧ x = name ++ "_typeset" := by
    rw [List.mem_append]
    refine (ho.mem_top_or_tail_iff hp).trans (exists_congr fun name => and_congr_right fun h => ?_)
    rw [ho.moduleOf_of_mentions h]
  have htop {name : String} (h : o.Mentions p name) : name ++ "_typeset" ∈ m.topImports ↔
      o.DerivesFrom p name ∨ ¬ (o.DerivedIn p name ∨ o.DefersFrom p name) := by
    rw [← ho.moduleOf_of_mentions h]
    exact ho.moduleOf_mem_top_iff hp h
  have hnodup : (m.topImports.toList ++ m.tailImports.toList).Nodup := by
    refine List.nodup_append.mpr ⟨m.topImports.nodup_toList, m.tailImports.nodup_toList, fun x hx y hy heq => ?_⟩
    exact (OrderedSet.mem_difference.mp hy).2 (heq ▸ hx)
  constructor
  case top_sorted => exact m.topImports.ascending
  case tail_sorted => exact m.tailImports.ascending
  case once => exact fun name h => List.count_eq_one_of_mem hnodup (hsibling.mpr ⟨name, h, rfl⟩)
  case mentioned => exact fun x hx => hsibling.mp hx
  case derived => exact fun name h hderives => (htop h).mpr (Or.inl hderives)
  case late =>
    intro name h hderives hlate
    have hnot : name ++ "_typeset" ∉ m.topImports := fun hmem =>
      ((htop h).mp hmem).elim hderives fun hearly => hearly hlate
    exact (List.mem_append.mp (hsibling.mpr ⟨name, h, rfl⟩)).resolve_left hnot
  case early => exact fun name h _ hearly => (htop h).mpr (Or.inr hearly)

end Ontology.Named

namespace Schema

variable {s : Schema} {o : Ontology}

/-- A run of the data model backend over an ontology built from a valid schema with different package names writes a
page for each package, with its imports at their places. -/
theorem imports_placed_of_build (hs : s.problems = []) (h : s.build = .ok o)
    (hnames : (s.packages.map Schema.Package.name).Nodup) :
    Backend.dataModel.Writes o False ((Backend.dataModel.pages o).map (Backend.dataModel.file o)) ∧
      ((Backend.dataModel.pages o).map Page.package).Perm o.packages ∧
        ∀ g ∈ Backend.dataModel.pages o, DataModel.Placed o g.package g.top g.tail := by
  have ho := named_of_build hs h hnames
  refine ⟨writes_data_model_pages (wired_of_build h) ho.names_nodup, (complete_pages_of_build h hnames).packages,
    fun g hg => ?_⟩
  obtain ⟨p, hp, -, rfl⟩ := Backend.exists_of_mem_pages hg
  exact ho.placed_page hp

/-- A mill with properties for a dam and for a pond, whose class has that of the mill as its base. -/
def sluice : Schema :=
  let package (name : String) (classes : List (String × Json × List (String × String))) : Package :=
    ⟨name, some "Water.", some (.ofList (classes.map fun (name, base, properties) =>
      (name, .object [("base", base), ("is_abstract", .boolean false), ("properties",
        .list (properties.map fun (name, type) => .list [.text name, .text type, .text "0.1"]))]))), none⟩
  ⟨"sluice", "1", "", [
    package "dam" [("arch", .null, [])],
    package "mill" [("stone", .null, [("gate", "dam.arch"), ("tail", "pond.trout")])],
    package "pond" [("trout", .text "mill.stone", [])]]⟩

/-- The modules of the schema, with their imports at the top and at the tail. -/
theorem sluice_imports_placed : ∃ o, sluice.build = .ok o ∧
    Backend.dataModel.Writes o False ((Backend.dataModel.pages o).map (Backend.dataModel.file o)) ∧
      (∀ g ∈ Backend.dataModel.pages o, DataModel.Placed o g.package g.top g.tail) ∧
        (Backend.dataModel.pages o).map (fun g => (DataModel.moduleOf g.package.name, g.top, g.tail)) =
          [("dam_typeset", [], []), ("mill_typeset", ["dam_typeset"], ["pond_typeset"]),
            ("pond_typeset", ["mill_typeset"], [])] := by
  have hs : sluice.problems = [] := by decide +kernel
  have hfacts : sluice.build.map (fun o => (o.diagnostics.unresolvedCount, o.sortedPackages.map fun p =>
      let m := (o.namedClasses p.id).foldl (DataModel.addEdges o p.name)
        (DataModel.openModule o p).bare
      (DataModel.moduleOf p.name, m.topImports.toList, m.tailImports.toList))) =
        .ok (0, [("dam_typeset", [], []), ("mill_typeset", ["dam_typeset"], ["pond_typeset"]),
          ("pond_typeset", ["mill_typeset"], [])]) := by
    cbv
  obtain ⟨o, ho, heq⟩ := Declaration.map_eq_ok.mp hfacts
  obtain ⟨hresolved, htable⟩ := Prod.mk.inj heq
  have hnames : (sluice.packages.map Schema.Package.name).Nodup := by decide
  obtain ⟨hwrites, -, hplaced⟩ := imports_placed_of_build hs ho hnames
  have hpackages := map_name_packages_of_build ho ▸ hnames
  have hpages : (Backend.dataModel.pages o).map (fun g => (DataModel.moduleOf g.package.name, g.top, g.tail)) =
      DataModel.importTable o := by
    rw [DataModel.importTable, Backend.entries_modules (arena_of_build ho) hpackages, Backend.pages, List.map_map,
      List.map_map]
    rfl
  exact ⟨o, ho, hwrites, hplaced,
    (hpages.trans (DataModel.importTable_eq (importable_of_build hs ho hresolved hpackages))).trans htable⟩

end Schema

end OntologyCompiler
