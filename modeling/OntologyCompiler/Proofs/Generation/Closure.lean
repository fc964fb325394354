import OntologyCompiler.Proofs.Declarations.Types
import OntologyCompiler.Proofs.Generation.Drafts
import OntologyCompiler.Proofs.Loading.Siblings
import OntologyCompiler.Proofs.PackageOrder

/-!
# Which imports lead to a file

What a generated file imports is read off its lines outside the blocks: the header, the import lines at the
top and those at the tail. All of them name data model modules, and a data model module is written for every
package. An import therefore leads nowhere exactly if a property names a type in a package that is not
there: such a type is reported and otherwise ignored, but its package is imported all the same.
-/

namespace OntologyCompiler

namespace CodeModule

/-- The sibling that a line imports: what stands between the words of an import and the next blank. -/
def importedSibling? (line : String) : Option String :=
  (Text.dropStart? "from . import ".toList line.toList).map fun rest => String.ofList (rest.takeWhile (· ≠ ' '))

/-- The lines of a module outside its blocks. -/
def outerLines (m : CodeModule) : List String :=
  m.header ++ m.topImports.toList.map importLine ++
    m.tailImports.toList.map fun s => importLine s ++ "  # noqa: E402"

end CodeModule

/-- The lines of the root module. -/
def PackageRoot.lines (o : Ontology) (listing : List String) : List String :=
  CodeModule.docHeader o (Naming.snake o.name) ++ [""] ++ (imports o).map CodeModule.importLine ++
    ["", "", "NAME = " ++ Json.quote o.name, "VERSION = " ++ Json.quote o.version, "", "ENTITIES = ("] ++
    (listing.map fun line => "    " ++ line ++ ",") ++ [")", ""]

/-- The root module is its lines. -/
theorem PackageRoot.render_eq (o : Ontology) (listing : List String) :
    render o listing = Text.join "\n" (lines o listing) := rfl

/-- What a generated file is made from. -/
inductive Source where
  | module (m : CodeModule)
  | root (o : Ontology) (listing : List String)

namespace Source

/-- The text of a file. -/
def text : Source → String
  | .module m => m.render
  | .root o listing => PackageRoot.render o listing

/-- The lines of a file outside its blocks. -/
def outerLines : Source → List String
  | .module m => m.outerLines
  | .root o listing => PackageRoot.lines o listing

/-- The siblings that a file imports. -/
def imports (source : Source) : List String := source.outerLines.filterMap CodeModule.importedSibling?

end Source

/-- A generated file with what it is made from. -/
structure GeneratedFile where
  directory : String
  filename : String
  source : Source

namespace GeneratedFile

/-- The file as a writer gets it. -/
def emission (f : GeneratedFile) : Emission := ⟨f.source.text, f.directory, f.filename⟩

/-- The name under which a file is imported. -/
def stem (f : GeneratedFile) : String := Path.stem f.filename

/-- Every sibling that a file imports is a file. -/
def Closed (files : List GeneratedFile) : Prop :=
  ∀ f ∈ files, ∀ sibling ∈ f.source.imports, ∃ f' ∈ files, f'.stem = sibling

end GeneratedFile

namespace Backend

/-- The files that a backend writes, if nothing refuses them. -/
def files (b : Backend) (o : Ontology) (options : GenerationOptions) : List GeneratedFile :=
  if b.generator.isRequired o then
    match b with
    | .packageRoot => [⟨CodeModules.directory o, "__init__.py", .root o (b.draft o options).listing⟩]
    | .dataModel | .decodingRules | .instanceChecks => (b.draft o options).modules.entries.map fun e =>
        ⟨CodeModules.directory o, Naming.fileName e.1 b.suffix, .module e.2⟩
  else []

/-- The files of a backend are its output. -/
theorem map_emission_files (b : Backend) (o : Ontology) (options : GenerationOptions) :
    (b.files o options).map GeneratedFile.emission = b.generator.output o options .empty := by
  unfold files Generator.output
  split
  next =>
    rw [emissions_eq]
    cases b with
    | dataModel => exact List.map_map
    | decodingRules => exact List.map_map
    | instanceChecks => exact List.map_map
    | packageRoot => rfl
  next => rfl

/-- A file is the root module, or it is made from a module that its backend has gathered. -/
theorem mem_files {b : Backend} {o : Ontology} {options : GenerationOptions} {f : GeneratedFile}
    (h : f ∈ b.files o options) :
    f = ⟨CodeModules.directory o, "__init__.py", .root o (b.draft o options).listing⟩ ∨
      b ≠ .packageRoot ∧ ∃ e ∈ (b.modules o).entries,
        f = ⟨CodeModules.directory o, Naming.fileName e.1 b.suffix, .module e.2⟩ := by
  unfold files at h
  rw [modules_draft] at h
  split at h
  next =>
    have hmodule (hb : b ≠ .packageRoot) (hmem : f ∈ (b.modules o).entries.map fun e =>
        (⟨CodeModules.directory o, Naming.fileName e.1 b.suffix, .module e.2⟩ : GeneratedFile)) :
        b ≠ .packageRoot ∧ ∃ e ∈ (b.modules o).entries,
          f = ⟨CodeModules.directory o, Naming.fileName e.1 b.suffix, .module e.2⟩ := by
      obtain ⟨e, he, rfl⟩ := List.mem_map.mp hmem
      exact ⟨hb, e, he, rfl⟩
    cases b with
    | dataModel => exact Or.inr (hmodule (by decide) h)
    | decodingRules => exact Or.inr (hmodule (by decide) h)
    | instanceChecks => exact Or.inr (hmodule (by decide) h)
    | packageRoot => exact Or.inl (List.mem_singleton.mp h)
  next => cases h

end Backend

/-- The files that all backends write. -/
def generatedFiles (o : Ontology) (options : GenerationOptions) : List GeneratedFile :=
  Backend.all.flatMap fun b => b.files o options

/-- The generated files are what a run of all backends writes into an empty memory. -/
theorem executeAll_memory {o : Ontology} {options : GenerationOptions} (h : options.Allow o) :
    Generator.executeAll o options .memory (Backend.all.map Backend.fresh) [] =
      (.ok (Backend.all.map fun b => b.generator.summary o options .empty),
        (generatedFiles o options).map GeneratedFile.emission) := by
  have houtput : (Backend.all.map Backend.fresh).flatMap (fun g => g.1.output o options g.2) =
      (generatedFiles o options).map GeneratedFile.emission := by
    rw [generatedFiles, List.map_flatMap, List.flatMap_map]
    simp only [Backend.map_emission_files]
    rfl
  have hwrite := Writer.writeAll_memory ((generatedFiles o options).map GeneratedFile.emission) []
  rw [← houtput] at hwrite
  rw [Generator.executeAll_of_output_ok h hwrite, List.nil_append, houtput, List.map_map]
  rfl

section Lines

variable {line x : String} {c : Char}

open CodeModule

/-- A line that starts otherwise imports nothing. -/
theorem importedSibling?_of_head (h : line.toList.head? = some c) (hc : c ≠ 'f') : importedSibling? line = none := by
  cases hline : line.toList with
  | nil =>
    rw [hline] at h
    cases h
  | cons d ds =>
    rw [hline] at h
    obtain rfl := Option.some.inj h
    have hstart : "from . import ".toList = 'f' :: "rom . import ".toList := rfl
    rw [importedSibling?, hline, hstart, Text.dropStart?, if_neg (Ne.symm hc)]
    rfl

/-- A line whose first part starts otherwise imports nothing. -/
theorem importedSibling?_append {rest : String} (h : line.toList.head? = some c) (hc : c ≠ 'f') :
    importedSibling? (line ++ rest) = none := by
  apply importedSibling?_of_head _ hc
  rw [String.toList_append, List.head?_append, h]
  rfl

/-- An import line imports its sibling, whatever stands behind a blank. -/
theorem importedSibling?_importLine (h : ' ' ∉ x.toList) {rest : String}
    (hrest : ∀ c ∈ rest.toList.head?, c = ' ') : importedSibling? (importLine x ++ rest) = some x := by
  have hdrop (start cs : List Char) : Text.dropStart? start (start ++ cs) = some cs := by
    induction start with
    | nil => rfl
    | cons c start ih => rw [List.cons_append, Text.dropStart?, if_pos rfl, ih]
  have htake (cs : List Char) (hcs : ' ' ∉ cs) :
      (cs ++ rest.toList).takeWhile (· ≠ ' ') = cs := by
    induction cs with
    | nil =>
      cases hchars : rest.toList with
      | nil => rfl
      | cons c cs =>
        obtain rfl := hrest c (by simp [hchars])
        rfl
    | cons c cs ih =>
      obtain ⟨hc, hcs⟩ := not_or.mp (mt List.mem_cons.mpr hcs)
      rw [List.cons_append, List.takeWhile_cons, if_pos (by simpa using Ne.symm hc), ih hcs]
  rw [importedSibling?, importLine, String.toList_append, String.toList_append, List.append_assoc, hdrop]
  simp only [Option.map_some]
  rw [htake _ h, String.ofList_toList]

/-- The docstring of a module imports nothing. -/
theorem importedSibling?_docHeader (o : Ontology) (title : String) :
    ∀ line ∈ docHeader o title, importedSibling? line = none := by
  simp only [docHeader, List.forall_mem_cons]
  refine ⟨rfl, importedSibling?_append (c := '.') rfl (by decide), ?_, rfl, rfl, rfl, by simp⟩
  simp only [String.append_assoc]
  exact importedSibling?_append (c := ' ') rfl (by decide)

/-- A module that opens with the data model imports only that in its header. -/
theorem importedSibling?_header {o : Ontology} {title package : String} (h : ' ' ∉ (DataModel.moduleOf package).toList)
    (hline : line ∈ docHeader o title ++ ["", importLine (DataModel.moduleOf package) ++ " as typeset"]) :
    importedSibling? line = none ∨ importedSibling? line = some (DataModel.moduleOf package) := by
  rcases List.mem_append.mp hline with hdoc | hrest
  · exact Or.inl (importedSibling?_docHeader o title line hdoc)
  · simp only [List.mem_cons, List.not_mem_nil, or_false] at hrest
    rcases hrest with rfl | rfl
    · exact Or.inl rfl
    · exact Or.inr (importedSibling?_importLine h (by simp))

end Lines

/-- The module of a package with a name has no blank in its name. -/
theorem DataModel.notMem_moduleOf {package : String} (h : Grammar.isName package = true) :
    ' ' ∉ (moduleOf package).toList := by
  rw [moduleOf_of_isName h]
  simp only [String.toList_append, List.mem_append, not_or]
  refine ⟨fun hmem => ?_, by decide⟩
  have hblank := Grammar.isNameChar_of_mem h ' ' hmem
  exact absurd hblank (by decide)

/-- The stem of a file is the name of its module. -/
theorem Naming.stem_fileName (package suffix : String) :
    Path.stem (fileName package suffix) = moduleName package suffix := by
  have hchars : (fileName package suffix).toList.reverse =
      ['y', 'p'] ++ '.' :: (moduleName package suffix).toList.reverse := by
    simp [fileName]
  have hfilled : (moduleName package suffix).toList.reverse.isEmpty = false := by
    simp [moduleName]
  rw [Path.stem, Path.splitExtension, hchars, Text.cut?_append (by decide)]
  simp only [hfilled, Bool.false_eq_true, if_false, List.reverse_reverse, String.ofList_toList]

namespace Source

variable {m : CodeModule} {x : String}

/-- All import sets of a module are imported at its top or at its tail. -/
theorem mem_top_or_tail : x ∈ m.topImports ∨ x ∈ m.tailImports ↔ x ∈ m.eager ∨ x ∈ m.imports ∨ x ∈ m.deferred := by
  simp only [CodeModule.tailImports, CodeModule.topImports, OrderedSet.mem_union, OrderedSet.mem_difference]
  tauto

/-- A module imports what its header does and its import sets. -/
theorem mem_imports_module (hplain : ∀ x, x ∈ m.eager ∨ x ∈ m.imports ∨ x ∈ m.deferred → ' ' ∉ x.toList) :
    x ∈ (Source.module m).imports ↔ (∃ line ∈ m.header, CodeModule.importedSibling? line = some x) ∨
      x ∈ m.eager ∨ x ∈ m.imports ∨ x ∈ m.deferred := by
  have htop : (∃ y ∈ m.topImports, CodeModule.importedSibling? (CodeModule.importLine y) = some x) ↔
      x ∈ m.topImports := by
    have hread (y : String) (hy : y ∈ m.topImports) :
        CodeModule.importedSibling? (CodeModule.importLine y) = some y := by
      have hblank := hplain y (mem_top_or_tail.mp (Or.inl hy))
      rw [← String.append_empty (s := CodeModule.importLine y)]
      exact importedSibling?_importLine hblank (by simp)
    refine ⟨fun h => ?_, fun hx => ⟨x, hx, hread x hx⟩⟩
    obtain ⟨y, hy, hx⟩ := h
    obtain rfl := Option.some.inj ((hread y hy).symm.trans hx)
    exact hy
  have htail : (∃ y ∈ m.tailImports, CodeModule.importedSibling?
      (CodeModule.importLine y ++ "  # noqa: E402") = some x) ↔ x ∈ m.tailImports := by
    have hread (y : String) (hy : y ∈ m.tailImports) :
        CodeModule.importedSibling? (CodeModule.importLine y ++ "  # noqa: E402") = some y := by
      have hblank := hplain y (mem_top_or_tail.mp (Or.inr hy))
      exact importedSibling?_importLine hblank (by simp)
    refine ⟨fun h => ?_, fun hx => ⟨x, hx, hread x hx⟩⟩
    obtain ⟨y, hy, hx⟩ := h
    obtain rfl := Option.some.inj ((hread y hy).symm.trans hx)
    exact hy
  rw [← mem_top_or_tail, ← htop, ← htail, ← or_assoc]
  simp only [imports, outerLines, CodeModule.outerLines, List.filterMap_append, List.mem_append,
    List.mem_filterMap, List.mem_map, exists_exists_and_eq_and, OrderedSet.mem_iff]

/-- The root module imports data model modules only. -/
theorem mem_imports_root {o : Ontology} {listing : List String}
    (hplain : ∀ x ∈ PackageRoot.imports o, ' ' ∉ x.toList) (hx : x ∈ (Source.root o listing).imports) :
    x ∈ PackageRoot.imports o := by
  obtain ⟨line, hline, hsibling⟩ := List.mem_filterMap.mp hx
  have hnone (h : CodeModule.importedSibling? line = none) : x ∈ PackageRoot.imports o := by
    rw [hsibling] at h
    cases h
  simp only [outerLines, PackageRoot.lines, List.mem_append, List.mem_cons, List.not_mem_nil, or_false,
    List.mem_map] at hline
  rcases hline with ((((hline | rfl) | ⟨y, hy, rfl⟩) | hline) | ⟨entry, -, rfl⟩) | rfl | rfl
  · exact hnone (importedSibling?_docHeader o _ line hline)
  · exact hnone rfl
  · have hread := @importedSibling?_importLine y (hplain y hy) "" (by simp)
    rw [String.append_empty, hsibling] at hread
    exact Option.some.inj hread ▸ hy
  · rcases hline with rfl | rfl | rfl | rfl | rfl | rfl
    · exact hnone rfl
    · exact hnone rfl
    · exact hnone (importedSibling?_append (c := 'N') rfl (by decide))
    · exact hnone (importedSibling?_append (c := 'V') rfl (by decide))
    · exact hnone rfl
    · exact hnone rfl
  · rw [String.append_assoc] at hnone
    exact hnone (importedSibling?_append (c := ' ') rfl (by decide))
  · exact hnone rfl
  · exact hnone rfl

end Source

namespace Ontology

/-- What generated imports rely on: different packages with names, and properties whose types have
packages with names. -/
structure Named (o : Ontology) : Prop where
  arena : o.Arena
  names_nodup : (o.packages.map Package.name).Nodup
  isName : ∀ p ∈ o.packages, Grammar.isName p.name = true
  packageNamed : ∀ p ∈ o.properties, p.type.PackageNamed
  needs : ∀ c e, e ∈ o.imports c ∨ e ∈ o.circularImports c ↔ o.Needs c e

/-- Every type of an own property is in a package that is there. -/
def TypesLocated (o : Ontology) : Prop :=
  ∀ c ∈ o.classes, ∀ p ∈ o.ownProperties c.id, ∀ package typeName,
    p.type.qualifiedParts = some (package, typeName) → ∃ q ∈ o.packages, q.name = package

namespace Named

variable {o : Ontology} {c : Class} {e : ImportEdge} (ho : o.Named)

include ho

/-- An edge to a base or to the class itself is in a package that is there. -/
theorem exists_package_of_edge {id : ClassId} {x : Class} (h : o.class? id = some x) :
    ∃ q ∈ o.packages, q.name = (o.edge id).package := by
  obtain ⟨q, hq⟩ := ho.arena.class_package h
  refine ⟨q, List.mem_of_getElem? hq, ?_⟩
  rw [edge_eq h]
  simp [edgeTo, packageName, hq]

/-- What a class needs is in a package that is there, or named by the type of an own property. -/
theorem exists_package_or_property {id : ClassId} (h : o.Needs id e) : (∃ q ∈ o.packages, q.name = e.package) ∨
    ∃ p ∈ o.ownProperties id, p.type.qualifiedParts = some (e.package, e.typeName) := by
  rcases h.2 with ⟨b, -, ⟨x, hx⟩, heq⟩ | hproperty
  · left
    rw [heq]
    exact ho.exists_package_of_edge hx
  · exact Or.inr hproperty

omit ho in
/-- An own property is a property. -/
theorem mem_properties {id : ClassId} {p : Property} (h : p ∈ o.ownProperties id) : p ∈ o.properties := by
  obtain ⟨x, hx⟩ := class?_of_mem_ownProperties h
  rw [ownProperties_eq hx] at h
  obtain ⟨i, -, hi⟩ := List.mem_filterMap.mp h
  exact List.mem_of_getElem? hi

/-- The package of what a class needs has a name. -/
theorem isName_of_needs {id : ClassId} (h : o.Needs id e) : Grammar.isName e.package = true := by
  rcases ho.exists_package_or_property h with ⟨q, hq, hname⟩ | ⟨p, hp, hparts⟩
  · exact hname ▸ ho.isName q hq
  · exact ho.packageNamed p (mem_properties hp) _ hparts

/-- The types of own properties are located exactly if all that is needed is. -/
theorem typesLocated_iff : o.TypesLocated ↔
    ∀ c ∈ o.classes, ∀ e, o.Needs c.id e → ∃ q ∈ o.packages, q.name = e.package := by
  refine ⟨fun hlocated c hc e hneeds => ?_, fun hneeded c hc p hp package typeName hparts => ?_⟩
  · rcases ho.exists_package_or_property hneeds with hpackage | ⟨p, hp, hparts⟩
    · exact hpackage
    · exact hlocated c hc p hp _ _ hparts
  · by_cases hself : (⟨package, typeName⟩ : ImportEdge) = o.edge c.id
    · obtain ⟨q, hq, hname⟩ := ho.exists_package_of_edge (ho.arena.class?_of_mem hc)
      exact ⟨q, hq, by rw [hname, ← hself]⟩
    · exact hneeded c hc ⟨package, typeName⟩ ⟨hself, Or.inr ⟨p, hp, hparts⟩⟩

end Named

/-- What is in the package order is a package. -/
theorem exists_package_of_mem_packageOrder {o : Ontology} {id : PackageId} (h : id ∈ o.packageOrder) :
    ∃ p ∈ o.packages, p.id = id := by
  obtain ⟨group, hgroup, hid⟩ := List.mem_flatten.mp h
  obtain ⟨places, -, rfl⟩ := List.mem_map.mp hgroup
  obtain ⟨place, -, hplace⟩ := List.mem_filterMap.mp (perm_sortOn.mem_iff.mp hid)
  obtain ⟨p, hp, rfl⟩ := Option.map_eq_some_iff.mp hplace
  exact ⟨p, perm_sortOn.mem_iff.mp (List.mem_of_getElem? hp), rfl⟩

end Ontology

namespace Backend

variable {o : Ontology} {b : Backend} {options : GenerationOptions} {p : Package} {x : String}

/-- The module that a backend has gathered for a package opens with the header for it, or with none. -/
theorem header_of_mem_modules {e : String × CodeModule} (he : e ∈ (b.modules o).entries) :
    e.2.header = [] ∨ ∃ p ∈ o.packages, e.2.header = (b.opened o p).header := by
  rw [← CodeModules.get_of_mem he, header_get_modules, CodeModules.get]
  cases hm : (b.opening o).get? e.1 with
  | none => exact Or.inl rfl
  | some m =>
    obtain ⟨p, hp, -, -, rfl⟩ := exists_of_get?_opening hm
    exact Or.inr ⟨p, hp, rfl⟩

/-- The header of a module imports at most a data model module. -/
theorem exists_package_of_header (hnames : ∀ p ∈ o.packages, Grammar.isName p.name = true) {e : String × CodeModule}
    (he : e ∈ (b.modules o).entries) {line : String} (hline : line ∈ e.2.header)
    (hx : CodeModule.importedSibling? line = some x) : ∃ p ∈ o.packages, x = DataModel.moduleOf p.name := by
  rcases header_of_mem_modules he with hnone | ⟨p, hp, hheader⟩
  · rw [hnone] at hline
    cases hline
  · have hnot (hnone : CodeModule.importedSibling? line = none) :
        ∃ p ∈ o.packages, x = DataModel.moduleOf p.name := by
      rw [hnone] at hx
      cases hx
    have htypeset (title : String) (hmem : line ∈ CodeModule.docHeader o title ++
        ["", CodeModule.importLine (DataModel.moduleOf p.name) ++ " as typeset"]) :
        ∃ p ∈ o.packages, x = DataModel.moduleOf p.name := by
      rcases importedSibling?_header (DataModel.notMem_moduleOf (hnames p hp)) hmem with hnone | hsome
      · exact hnot hnone
      · exact ⟨p, hp, Option.some.inj (hx.symm.trans hsome)⟩
    rw [hheader] at hline
    cases b with
    | dataModel =>
      rcases List.mem_append.mp hline with hdoc | hrest
      · exact hnot (importedSibling?_docHeader o _ line hdoc)
      · simp only [List.mem_cons, List.not_mem_nil, or_false] at hrest
        rcases hrest with rfl | rfl | rfl | rfl | rfl
        all_goals exact hnot rfl
    | decodingRules => exact htypeset _ hline
    | instanceChecks => exact htypeset _ hline
    | packageRoot => cases hline

end Backend

namespace Ontology.Named

variable {o : Ontology} {options : GenerationOptions} {p : Package} {x : String} (ho : o.Named)

include ho

/-- What a class needs is what it imports or puts off. -/
theorem needs_iff {c : Class} (hc : c ∈ o.classes) {e : ImportEdge} :
    o.Needs c.id e ↔ e ∈ c.imports ∨ e ∈ c.circularImports := by
  rw [← ho.needs, Ontology.imports, Ontology.circularImports, ho.arena.class?_of_mem hc]
  rfl

/-- The import sets of a data model module: the packages derived from, and all that its classes need. -/
theorem mem_sets_iff (hp : p ∈ o.packages) :
    x ∈ ((Backend.dataModel.modules o).get p.name).eager ∨ x ∈ ((Backend.dataModel.modules o).get p.name).imports ∨
      x ∈ ((Backend.dataModel.modules o).get p.name).deferred ↔
    (∃ q ∈ o.packages, o.Derives p.id q.id ∧ x = DataModel.moduleOf q.name) ∨
      ∃ c ∈ o.classes, c.package = p.id ∧ ∃ e, o.Needs c.id e ∧ e.package ≠ p.name ∧
        x = DataModel.moduleOf e.package := by
  rw [DataModel.eager_get_modules ho.arena ho.names_nodup hp,
    DataModel.mem_imports_get_modules ho.arena ho.names_nodup hp,
    DataModel.mem_deferred_get_modules ho.arena ho.names_nodup hp, OrderedSet.mem_ofList, List.mem_map]
  refine or_congr ⟨fun h => ?_, fun h => ?_⟩ ⟨fun h => ?_, fun h => ?_⟩
  · obtain ⟨name, hname, heq⟩ := h
    obtain ⟨q, hq, hderives, rfl⟩ := (DataModel.mem_basePackages ho.arena hp).mp hname
    exact ⟨q, hq, hderives, heq.symm⟩
  · obtain ⟨q, hq, hderives, heq⟩ := h
    exact ⟨q.name, (DataModel.mem_basePackages ho.arena hp).mpr ⟨q, hq, hderives, rfl⟩, heq.symm⟩
  · rcases h with ⟨c, hc, hown, e, he, hne, -, heq⟩ | ⟨c, hc, hown, ⟨e, he, hne, -, heq⟩ | ⟨e, he, hne, heq⟩⟩
    · exact ⟨c, hc, hown, e, (ho.needs_iff hc).mpr (Or.inl he), hne, heq⟩
    · exact ⟨c, hc, hown, e, (ho.needs_iff hc).mpr (Or.inl he), hne, heq⟩
    · exact ⟨c, hc, hown, e, (ho.needs_iff hc).mpr (Or.inr he), hne, heq⟩
  · obtain ⟨c, hc, hown, e, hneeds, hne, heq⟩ := h
    rcases (ho.needs_iff hc).mp hneeds with he | he
    · cases hderives : DataModel.derivesFrom o e.package p.name
      · exact Or.inl ⟨c, hc, hown, e, he, hne, hderives, heq⟩
      · exact Or.inr ⟨c, hc, hown, Or.inl ⟨e, he, hne, hderives, heq⟩⟩
    · exact Or.inr ⟨c, hc, hown, Or.inr ⟨e, he, hne, heq⟩⟩

/-- What a gathered module has in its import sets is a data model module, named by a package with a name. -/
theorem exists_name_of_mem_sets {b : Backend} {e : String × CodeModule}
    (he : e ∈ (b.modules o).entries) (hx : x ∈ e.2.eager ∨ x ∈ e.2.imports ∨ x ∈ e.2.deferred) :
    ∃ package, Grammar.isName package = true ∧ x = DataModel.moduleOf package ∧
      (o.TypesLocated → ∃ q ∈ o.packages, q.name = package) := by
  by_cases hb : b = .dataModel
  · subst hb
    rw [DataModel.entries_modules ho.arena ho.names_nodup] at he
    obtain ⟨p, hp, rfl⟩ := List.mem_map.mp he
    rcases (ho.mem_sets_iff (perm_sortOn.mem_iff.mp hp)).mp hx with ⟨q, hq, -, heq⟩ | ⟨c, hc, -, e, hneeds, -, heq⟩
    · exact ⟨q.name, ho.isName q hq, heq, fun _ => ⟨q, hq, rfl⟩⟩
    · exact ⟨e.package, ho.isName_of_needs hneeds, heq, fun h => ho.typesLocated_iff.mp h c hc e hneeds⟩
  · obtain ⟨heager, himports, hdeferred⟩ := CodeModules.get_of_mem he ▸ Backend.imports_get_modules hb e.1
    rw [heager, himports, hdeferred] at hx
    rcases hx with hx | hx | hx
    all_goals exact absurd hx OrderedSet.not_mem_empty

/-- What a gathered module imports comes from its header or its import sets. -/
theorem mem_imports_modules {b : Backend} {e : String × CodeModule} (he : e ∈ (b.modules o).entries) :
    x ∈ (Source.module e.2).imports ↔ (∃ line ∈ e.2.header, CodeModule.importedSibling? line = some x) ∨
      x ∈ e.2.eager ∨ x ∈ e.2.imports ∨ x ∈ e.2.deferred := by
  refine Source.mem_imports_module fun y hy => ?_
  obtain ⟨package, hname, rfl, -⟩ := ho.exists_name_of_mem_sets he hy
  exact DataModel.notMem_moduleOf hname

/-- With located types all that a file imports is the data model module of a package. -/
theorem exists_package_of_mem_imports (hlocated : o.TypesLocated) {b : Backend} {f : GeneratedFile}
    (hf : f ∈ b.files o options) (hx : x ∈ f.source.imports) :
    ∃ q ∈ o.packages, x = DataModel.moduleOf q.name := by
  rcases Backend.mem_files hf with rfl | ⟨-, e, he, rfl⟩
  · have hpackage (y : String) (hy : y ∈ PackageRoot.imports o) : ∃ q ∈ o.packages, y = DataModel.moduleOf q.name := by
      obtain ⟨id, hid, rfl⟩ := List.mem_map.mp hy
      obtain ⟨q, hq, rfl⟩ := exists_package_of_mem_packageOrder hid
      exact ⟨q, hq, by rw [DataModel.packageName_id ho.arena hq]⟩
    refine hpackage x (Source.mem_imports_root (fun y hy => ?_) hx)
    obtain ⟨q, hq, rfl⟩ := hpackage y hy
    exact DataModel.notMem_moduleOf (ho.isName q hq)
  · rcases (ho.mem_imports_modules he).mp hx with ⟨line, hline, hsibling⟩ | hsets
    · exact Backend.exists_package_of_header ho.isName he hline hsibling
    · obtain ⟨package, -, heq, hpackage⟩ := ho.exists_name_of_mem_sets he hsets
      obtain ⟨q, hq, rfl⟩ := hpackage hlocated
      exact ⟨q, hq, heq⟩

/-- The data model module of a package is gathered. -/
theorem mem_entries_modules (hp : p ∈ o.packages) :
    (p.name, (Backend.dataModel.modules o).get p.name) ∈ (Backend.dataModel.modules o).entries := by
  rw [DataModel.entries_modules ho.arena ho.names_nodup]
  exact List.mem_map.mpr ⟨p, perm_sortOn.mem_iff.mpr hp, rfl⟩

/-- The data model file of a package. -/
theorem exists_file (options : GenerationOptions) (hp : p ∈ o.packages) : ∃ f ∈ generatedFiles o options,
    f.stem = DataModel.moduleOf p.name ∧ f.source = .module ((Backend.dataModel.modules o).get p.name) := by
  refine ⟨⟨CodeModules.directory o, Naming.fileName p.name DataModel.suffix, _⟩, ?_, ?_, rfl⟩
  · refine List.mem_flatMap.mpr ⟨.dataModel, by simp [Backend.all], ?_⟩
    rw [Backend.files, if_pos (show Backend.dataModel.generator.isRequired o = true from rfl), Backend.modules_draft]
    exact List.mem_map.mpr ⟨_, ho.mem_entries_modules hp, rfl⟩
  · exact Naming.stem_fileName p.name DataModel.suffix

/-- A file with the name of a data model module is that of a package. -/
theorem exists_package_of_stem {f : GeneratedFile} (hf : f ∈ generatedFiles o options) {package : String}
    (hpackage : Grammar.isName package = true) (hstem : f.stem = DataModel.moduleOf package) :
    ∃ q ∈ o.packages, q.name = package := by
  obtain ⟨b, -, hfile⟩ := List.mem_flatMap.mp hf
  rcases Backend.mem_files hfile with rfl | ⟨hb, e, he, rfl⟩
  · have hinit : DataModel.moduleOf package = "__init__" := by
      rw [← hstem]
      change Path.stem "__init__.py" = "__init__"
      decide
    exact absurd hinit (Backend.moduleName_ne_init (b := .dataModel) (by decide))
  · obtain ⟨q, hq, heq⟩ := Backend.exists_package_of_mem_modules he
    have hname : Path.stem (Naming.fileName e.1 b.suffix) = DataModel.moduleOf package := hstem
    rw [Naming.stem_fileName, ← heq] at hname
    -- Module names with different suffixes are different, so this is a file of the data model.
    obtain rfl := @Backend.eq_of_moduleName_eq b .dataModel hb (by decide) _ _ hname
    exact ⟨q, hq, DataModel.moduleOf_injOn (ho.isName q hq) hpackage hname⟩

/-- Generated files are closed under import exactly if the types of own properties are located. -/
theorem closed_generatedFiles_iff : GeneratedFile.Closed (generatedFiles o options) ↔ o.TypesLocated := by
  refine ⟨fun hclosed => ho.typesLocated_iff.mpr fun c hc e hneeds => ?_, fun hlocated f hf x hx => ?_⟩
  · obtain ⟨p, hp⟩ := ho.arena.class_package (ho.arena.class?_of_mem hc)
    have hmem : p ∈ o.packages := List.mem_of_getElem? hp
    by_cases hown : e.package = p.name
    · exact ⟨p, hmem, hown.symm⟩
    · obtain ⟨f, hf, -, hsource⟩ := ho.exists_file options hmem
      have hsets := (ho.mem_sets_iff (x := DataModel.moduleOf e.package) hmem).mpr <|
        Or.inr ⟨c, hc, (ho.arena.package_id hp).symm ▸ rfl, e, hneeds, hown, rfl⟩
      have himports := (ho.mem_imports_modules (ho.mem_entries_modules hmem)).mpr (Or.inr hsets)
      obtain ⟨f', hf', hstem⟩ := hclosed f hf (DataModel.moduleOf e.package) (hsource ▸ himports)
      exact ho.exists_package_of_stem hf' (ho.isName_of_needs hneeds) hstem
  · obtain ⟨b, -, hfile⟩ := List.mem_flatMap.mp hf
    obtain ⟨q, hq, rfl⟩ := ho.exists_package_of_mem_imports hlocated hfile hx
    obtain ⟨f', hf', hstem, -⟩ := ho.exists_file options hq
    exact ⟨f', hf', hstem⟩

end Ontology.Named

namespace Schema

variable {s : Schema} {o : Ontology}

/-- In a built ontology the types of properties have proper package names. -/
theorem packageNamed_of_build (hs : s.problems = []) (h : s.build = .ok o) :
    ∀ p ∈ o.properties, p.type.PackageNamed := by
  intro p hp parts hparts
  obtain ⟨ps, hps, rfl⟩ := build_eq_ok_iff.mp h
  obtain ⟨q, hq, c, hc, d, hd, -, -, -, hname, -⟩ := exists_declaration_of_mem_resolve hp
  rw [ValueType.qualifiedParts, hname] at hparts
  exact packageNamed_of_declarations hs hps hq hc d hd parts hparts

/-- A built ontology has what generated imports rely on, if its package names are different. -/
theorem named_of_build (hs : s.problems = []) (h : s.build = .ok o)
    (hnames : (s.packages.map Schema.Package.name).Nodup) : o.Named where
  arena := arena_of_build h
  names_nodup := map_name_packages_of_build h ▸ hnames
  isName := isName_of_build hs h
  packageNamed := packageNamed_of_build hs h
  needs := by
    obtain ⟨kept, hkept⟩ := exists_keptPairs_of_build h
    exact fun c e => hkept.mem_or_mem_iff

/-- A lenient run of all backends over an ontology built from a valid schema with different package names
writes the generated files. Every sibling that one of them imports is one of them exactly if every type of an
own property is in a package that is there. -/
theorem imports_closed_iff (hs : s.problems = []) (h : s.build = .ok o)
    (hnames : (s.packages.map Schema.Package.name).Nodup) {options : GenerationOptions}
    (hlenient : options.strictness = .lenient) :
    Generator.executeAll o options .memory (Backend.all.map Backend.fresh) [] =
        (.ok (Backend.all.map fun b => b.generator.summary o options .empty),
          (generatedFiles o options).map GeneratedFile.emission) ∧
      (GeneratedFile.Closed (generatedFiles o options) ↔ o.TypesLocated) := by
  refine ⟨executeAll_memory fun hstrict => ?_, (named_of_build hs h hnames).closed_generatedFiles_iff⟩
  rw [hlenient] at hstrict
  cases hstrict

/-- A schema with one package and one class, whose property has a given type. -/
def glade (type : String) : Schema :=
  let flower := .object [("base", .null), ("is_abstract", .boolean false),
    ("properties", .list [.list [.text "water", .text type, .text "0.1"]])]
  ⟨"glade", "1", "", [⟨"meadow", some "Flowers.", some (.ofList [("flower", flower)]), none⟩]⟩

/-- The packages of an ontology and what the types of its properties name. -/
def typeFacts (o : Ontology) : List String × List (Option (String × String)) :=
  (o.packages.map OntologyCompiler.Package.name,
    o.classes.flatMap fun c => (o.ownProperties c.id).map fun p => p.type.qualifiedParts)

/-- Whether types are located is seen in these facts. -/
theorem typesLocated_iff_typeFacts : o.TypesLocated ↔
    ∀ package typeName, some (package, typeName) ∈ (typeFacts o).2 → package ∈ (typeFacts o).1 := by
  simp only [Ontology.TypesLocated, typeFacts, List.mem_flatMap, List.mem_map]
  refine ⟨fun h package typeName hmem => ?_, fun h c hc p hp package typeName hparts => ?_⟩
  · obtain ⟨c, hc, p, hp, hparts⟩ := hmem
    exact h c hc p hp package typeName hparts
  · exact h package typeName ⟨c, hc, p, hp, hparts⟩

/-- The files generated for a type of the same package are closed under import, those generated for a type in
a package that is not there are not. -/
theorem glade_imports_closed :
    (∃ o, (glade "meadow.flower").build = .ok o ∧ GeneratedFile.Closed (generatedFiles o default)) ∧
      ∃ o, (glade "brook.water").build = .ok o ∧ ¬ GeneratedFile.Closed (generatedFiles o default) := by
  constructor
  · have hs : (glade "meadow.flower").problems = [] := by decide +kernel
    have hfacts : (glade "meadow.flower").build.map typeFacts = .ok (["meadow"], [some ("meadow", "flower")]) := by
      cbv
    obtain ⟨o, ho, heq⟩ := Declaration.map_eq_ok.mp hfacts
    have hlocated : o.TypesLocated := by
      rw [typesLocated_iff_typeFacts, heq]
      simp
    exact ⟨o, ho, (imports_closed_iff hs ho (by decide) rfl).2.mpr hlocated⟩
  · have hs : (glade "brook.water").problems = [] := by decide +kernel
    have hfacts : (glade "brook.water").build.map typeFacts = .ok (["meadow"], [some ("brook", "water")]) := by
      cbv
    obtain ⟨o, ho, heq⟩ := Declaration.map_eq_ok.mp hfacts
    have hlost : ¬ o.TypesLocated := by
      rw [typesLocated_iff_typeFacts, heq]
      simp
    exact ⟨o, ho, mt (imports_closed_iff hs ho (by decide) rfl).2.mp hlost⟩

end Schema

end OntologyCompiler
