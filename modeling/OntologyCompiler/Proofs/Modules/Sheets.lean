import OntologyCompiler.Proofs.Loading.Names
import OntologyCompiler.Proofs.Modules.Layout
import OntologyCompiler.Proofs.References.Wiring

/-!
# Modules that packages share

Modules are kept by the names of packages, so packages of one name share a module. It ends up with the header for that
name and a block for each item of a package of that name, whichever of the packages opened it last. A backend that
gathers modules writes each of them once, with its blocks in their final order, and nothing else.
-/

namespace OntologyCompiler

/-- A module as it is written: the name of its packages, the siblings imported at the top, the items in their final
order, and the siblings imported at the tail. -/
structure Sheet where
  package : String
  top : List String
  items : List Item
  tail : List String

/-- No class declares a decoding exactly if none has an effective one. -/
theorem DecodingRules.decodingCount_eq_zero_iff {o : Ontology} (ho : o.Arena) :
    o.decodingCount = 0 ↔ ∀ c ∈ o.classes, o.allDecodings c.id = [] := by
  rw [Ontology.decodingCount, List.length_eq_zero_iff, List.flatMap_eq_nil_iff]
  refine ⟨fun hnone c _ => List.eq_nil_iff_forall_not_mem.mpr fun d hd => ?_, fun hnone c hc => ?_⟩
  · obtain ⟨level, hlevel, hmem⟩ := exists_level_of_mem_mergeLevels (perm_sortOn.mem_iff.mp hd)
    obtain ⟨id, -, rfl⟩ := List.mem_map.mp hlevel
    cases hx : o.class? id with
    | none => simp [Ontology.ownDecodings, hx] at hmem
    | some x => simp [Ontology.ownDecodings, hx, hnone x (Ontology.Arena.mem_of_class? hx)] at hmem
  · have hown : o.ownDecodings c.id = c.decodings := by simp [Ontology.ownDecodings, ho.class?_of_mem hc]
    have hmerged : mergeLevels Decoding.key [] ((o.lineage c.id).map o.ownDecodings) = [] :=
      (perm_sortOn.symm.trans (.of_eq (hnone c hc))).eq_nil
    rw [Ontology.lineage, List.map_cons, mergeLevels_cons, hown, List.append_eq_nil_iff] at hmerged
    exact hmerged.1

namespace Backend

variable (b : Backend) (o : Ontology)

/-- The lines of a header below its docstring. -/
def preamble (package : String) : List String :=
  match b with
  | .dataModel => ["", "import abc", "import datetime", "import enum", "import uuid"]
  | .decodingRules | .instanceChecks => ["", "from . import " ++ Naming.snake package ++ "_typeset as typeset"]
  | .packageRoot => []

/-- The header of the module of a name. -/
def header (package : String) : List String :=
  [ "\"\"\"",
    ".. module:: " ++ Naming.snake package ++ "_" ++ b.suffix,
    "   :synopsis: " ++ o.name ++ " v" ++ o.version ++ ".",
    "",
    "   Auto-generated, do not edit.",
    "\"\"\"" ] ++ b.preamble package

/-- The items of the packages of a name that have a block, in the order of the walk. -/
def shown (package : String) : List Item :=
  o.items.filter fun i => b.shows o i ∧ o.packageName i.package = package

/-- The sheet of a module. -/
def sheet (e : String × CodeModule) : Sheet where
  package := e.1
  top := e.2.topImports.toList
  items := (b.shown o e.1).mergeSort fun i j => (CodeModule.blockOrder (b.block o e.1 i) (b.block o e.1 j)).isLE
  tail := e.2.tailImports.toList

/-- The sheets that a backend writes, in order of names. -/
def sheets : List Sheet := (b.modules o).entries.map (b.sheet o)

/-- The code of an item on a sheet. -/
def text (package : String) (i : Item) : String := (b.block o package i).text

/-- The file of a sheet. -/
def emission (g : Sheet) : Emission :=
  ⟨CodeModule.layout (b.header o g.package) g.top (g.items.map (b.text o g.package)) g.tail, CodeModules.directory o,
    Naming.snake g.package ++ "_" ++ b.suffix ++ ".py"⟩

/-- Sheets that show all that a backend is to show, each item once and in the module of its package. -/
structure Presents (sheets : List Sheet) : Prop where
  packages_sorted : sheets.Pairwise fun g h => compare g.package h.package = .lt
  /-- The names with a sheet are those of the packages that open a module. -/
  packages : ∀ name, (∃ g ∈ sheets, g.package = name) ↔ ∃ p ∈ o.packages, b.opens o p = true ∧ p.name = name
  items : ∀ g ∈ sheets, ∀ i, i ∈ g.items ↔ i ∈ o.items ∧ b.shows o i = true ∧ o.packageName i.package = g.package
  nodup : ∀ g ∈ sheets, g.items.Nodup
  /-- Each item that is to have a block is on a sheet. -/
  complete : ∀ i ∈ o.items, b.shows o i = true → ∃ g ∈ sheets, i ∈ g.items

/-- Sheets that are written, unless the backend has nothing to do, and show all that it is to show. -/
structure Publishes (sheets : List Sheet) : Prop extends b.Presents o sheets where
  writes : b.Writes o (b.generator.isRequired o = false) (sheets.map (b.emission o))

variable {b o} {i : Item} {p : Package} {name : String} {m : CodeModule}

/-- The name of the file of a module, put together part by part. -/
theorem fileName_eq (package suffix : String) :
    Naming.fileName package suffix = Naming.snake package ++ "_" ++ suffix ++ ".py" := by
  rw [Naming.fileName, Naming.moduleName, ← String.append_assoc]

/-- A header is the docstring of a module with the lines below it. -/
theorem header_eq (package : String) :
    b.header o package = CodeModule.docHeader o (Naming.moduleName package b.suffix) ++ b.preamble package := by
  simp [header, CodeModule.docHeader, Naming.moduleName, String.append_assoc]

/-- A module is opened with the header for the name of its package. -/
theorem header_opened (hb : b ≠ .packageRoot) (p : Package) : (b.opened o p).header = b.header o p.name := by
  have htypeset : CodeModule.importLine (DataModel.moduleOf p.name) ++ " as typeset" =
      "from . import " ++ Naming.snake p.name ++ "_typeset as typeset" := by
    simp [CodeModule.importLine, DataModel.moduleOf_eq, String.append_assoc]
  rw [header_eq]
  cases b with
  | dataModel => rfl
  | decodingRules => exact congrArg (fun line => CodeModule.docHeader o _ ++ ["", line]) htypeset
  | instanceChecks => exact congrArg (fun line => CodeModule.docHeader o _ ++ ["", line]) htypeset
  | packageRoot => exact absurd rfl hb

/-- The package of an item is there. -/
theorem exists_package_of_mem_items (ho : o.Wired) (hi : i ∈ o.items) : ∃ p, o.package? i.package = some p := by
  rcases List.mem_append.mp hi with hclass | henum
  · obtain ⟨c, hc, rfl⟩ := List.mem_map.mp hclass
    exact ho.class_package (ho.class?_of_mem (o.listing_sorted.classes_perm.mem_iff.mp hc))
  · obtain ⟨e, he, rfl⟩ := List.mem_map.mp henum
    obtain ⟨n, hn⟩ := List.mem_iff_getElem?.mp (o.listing_sorted.enums_perm.mem_iff.mp he)
    exact ho.enum_package (show o.enum? ⟨n⟩ = some e from hn)

/-- No item comes twice. -/
theorem nodup_items (ho : o.Wired) : o.items.Nodup := by
  have hclasses : o.sortedClasses.Nodup :=
    o.listing_sorted.classes_perm.nodup_iff.mpr (.of_map _ ho.class_names_nodup)
  have henums : o.sortedEnums.Nodup :=
    o.listing_sorted.enums_perm.nodup_iff.mpr (.of_map _ ho.names_nodup.of_append_right)
  refine List.nodup_append.mpr ⟨hclasses.map fun _ _ => Item.ofClass.inj, henums.map fun _ _ => Item.ofEnum.inj, ?_⟩
  rintro _ hi _ hj rfl
  obtain ⟨c, -, rfl⟩ := List.mem_map.mp hi
  obtain ⟨e, -, heq⟩ := List.mem_map.mp hj
  cases heq

/-- The items shown under a name are those that add to the module of that name. -/
theorem filter_fills_eq_shown (ho : o.Wired) (name : String) : o.items.filter (b.Fills o name ·) = b.shown o name := by
  refine List.filter_congr fun i hi => ?_
  obtain ⟨p, hp⟩ := exists_package_of_mem_items ho hi
  simp [fills_iff hp, Ontology.packageName, hp]

/-- A backend has nothing to do exactly if it is the one for decodings and no class has an effective decoding. -/
theorem isRequired_eq_false_iff (ho : o.Arena) :
    b.generator.isRequired o = false ↔ b = .decodingRules ∧ ∀ c ∈ o.classes, o.allDecodings c.id = [] := by
  cases b with
  | decodingRules =>
    rw [and_iff_right rfl, ← DecodingRules.decodingCount_eq_zero_iff ho]
    simp [generator, DecodingRules.generator]
  | dataModel => simp [generator, DataModel.generator]
  | instanceChecks => simp [generator, InstanceChecks.generator]
  | packageRoot => simp [generator, PackageRoot.generator]

/-- The sheets show all that the backend is to show. -/
theorem presents_sheets (ho : o.Wired) (b : Backend) : b.Presents o (b.sheets o) := by
  have hpackages (name : String) : (∃ g ∈ b.sheets o, g.package = name) ↔
      ∃ p ∈ o.packages, b.opens o p = true ∧ p.name = name := by
    rw [← isSome_get?_modules ho.toArena, Option.isSome_iff_exists]
    simp only [sheets, List.mem_map, exists_exists_and_eq_and, OrderedMap.get?_eq_some_iff]
    constructor
    · rintro ⟨⟨name', m⟩, he, rfl⟩
      exact ⟨m, he⟩
    · rintro ⟨m, he⟩
      exact ⟨(name, m), he, rfl⟩
  have hitems (g : Sheet) (hg : g ∈ b.sheets o) (i : Item) :
      i ∈ g.items ↔ i ∈ o.items ∧ b.shows o i = true ∧ o.packageName i.package = g.package := by
    obtain ⟨e, he, rfl⟩ := List.mem_map.mp hg
    simp [sheet, shown]
  constructor
  case packages_sorted => exact List.pairwise_map.mpr (b.modules o).ascending
  case packages => exact hpackages
  case items => exact hitems
  case nodup =>
    intro g hg
    obtain ⟨e, he, rfl⟩ := List.mem_map.mp hg
    exact (List.mergeSort_perm _ _).nodup_iff.mpr ((nodup_items ho).sublist List.filter_sublist)
  case complete =>
    intro i hi hshows
    obtain ⟨p, hp⟩ := exists_package_of_mem_items ho hi
    have hmem : p ∈ o.packages := List.mem_of_getElem? hp
    have hopens := opens_of_shows ho.toArena hmem hi (ho.package_id hp).symm hshows
    obtain ⟨g, hg, hname⟩ := (hpackages p.name).mpr ⟨p, hmem, hopens, rfl⟩
    exact ⟨g, hg, (hitems g hg i).mpr ⟨hi, hshows, by simp [Ontology.packageName, hp, hname]⟩⟩

/-- A backend that is not required has no sheets. -/
theorem sheets_eq_nil (ho : o.Wired) (hidle : b.generator.isRequired o = false) : b.sheets o = [] := by
  obtain ⟨rfl, hnone⟩ := (isRequired_eq_false_iff ho.toArena).mp hidle
  refine List.eq_nil_iff_forall_not_mem.mpr fun g hg => ?_
  obtain ⟨p, hp, hopens, -⟩ := ((presents_sheets ho _).packages g.package).mp ⟨g, hg, rfl⟩
  obtain ⟨c, hc, -, hshows⟩ := ((opens_iff ho.toArena hp).mp hopens).resolve_left (by decide)
  simp [shows, hnone c hc] at hshows

section Opened

variable (ho : o.Wired) (hb : b ≠ .packageRoot)

include ho hb

/-- A module has the header for its name. -/
theorem header_eq_of_mem_modules {e : String × CodeModule} (he : e ∈ (b.modules o).entries) :
    e.2.header = b.header o e.1 := by
  have hpackage := (isSome_get?_modules ho.toArena).mp (Option.isSome_of_mem (OrderedMap.get?_eq_some_iff.mpr he))
  obtain ⟨m, hm⟩ := Option.isSome_iff_exists.mp (isSome_get?_opening.mpr hpackage)
  obtain ⟨p, -, -, hname, rfl⟩ := exists_of_get?_opening hm
  rw [← CodeModules.get_of_mem he, header_get_modules, CodeModules.get, hm, Option.getD_some, header_opened hb, hname]

/-- A module is written as its sheet. -/
theorem render_of_mem_modules {e : String × CodeModule} (he : e ∈ (b.modules o).entries) :
    e.2.render = (b.emission o (b.sheet o e)).content := by
  have hheader := header_eq_of_mem_modules ho hb he
  have hopen : e.2.header ≠ [] := hheader ▸ List.cons_ne_nil _ _
  have hsorted : e.2.sortedBlocks = (b.sheet o e).items.map (b.block o e.1) := by
    have hplaces : ∀ i ∈ b.shown o e.1, ∀ j ∈ b.shown o e.1,
        (CodeModule.blockOrder (b.block o e.1 i) (b.block o e.1 j)).isLE =
          (CodeModule.blockOrder (b.block o e.1 i) (b.block o e.1 j)).isLE := fun _ _ _ _ => rfl
    rw [CodeModule.sortedBlocks, ← CodeModules.get_of_mem he, blocks_get_modules, filter_fills_eq_shown ho]
    exact (List.map_mergeSort hplaces).symm
  rw [CodeModule.render_eq_layout hopen, hsorted, hheader, List.map_map]
  rfl

/-- A backend that gathers modules writes its sheets. -/
theorem writes_sheets : b.Writes o (b.generator.isRequired o = false) ((b.sheets o).map (b.emission o)) := by
  have hemissions : (b.modules o).emissions o b.suffix = (b.sheets o).map (b.emission o) := by
    rw [CodeModules.emissions, sheets, List.map_map]
    refine List.map_congr_left fun e he => ?_
    rw [render_of_mem_modules ho hb he, fileName_eq]
    rfl
  have hfinish (options : GenerationOptions) (d : Draft) :
      (b.generator.visit o options .finish d).1 = d.modules.emissions o b.suffix := by
    cases b with
    | packageRoot => exact absurd rfl hb
    | _ => rfl
  refine writes_of_output Iff.rfl fun options => ?_
  unfold Generator.output
  split
  next => rw [emissions_eq, hfinish, modules_draft, hemissions]
  next hidle => rw [sheets_eq_nil ho (by simpa using hidle), List.map_nil]

/-- A backend that gathers modules publishes its sheets. -/
theorem publishes_sheets : b.Publishes o (b.sheets o) := ⟨presents_sheets ho b, writes_sheets ho hb⟩

end Opened

end Backend

end OntologyCompiler
