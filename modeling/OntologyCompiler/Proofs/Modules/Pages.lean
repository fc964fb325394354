import OntologyCompiler.Proofs.Inheritance.Lineage
import OntologyCompiler.Proofs.Loading.Siblings
import OntologyCompiler.Proofs.Modules.Sheets

/-!
# The pages of the data model

If packages have different names, each of them has a module of its own. Classes come to it in order of names, from all
packages together, and enumerations after them. A module sorts what came by depth, the number of ancestors of a class,
and keeps the order of names where depths are equal. In a built ontology a class is one deeper than its base, so its
base stands before it if it is in the same module. What the code of a class or an enumeration is to be is said line by
line, without the functions that write it.
-/

namespace OntologyCompiler

/-- Items that belong to different owners can be listed owner by owner. -/
theorem perm_flatMap_owners {α β κ : Type} [DecidableEq κ] (id : β → κ) {owner : α → κ} {pick : β → List α}
    {owners : List β} {l : List α} (hnodup : (owners.map id).Nodup) (howner : ∀ a ∈ l, owner a ∈ owners.map id)
    (hpick : ∀ b ∈ owners, (pick b).Perm (l.filter fun a => owner a = id b)) : (owners.flatMap pick).Perm l := by
  induction owners generalizing l with
  | nil =>
    have hnone : l = [] := List.eq_nil_iff_forall_not_mem.mpr fun a ha => nomatch howner a ha
    rw [hnone, List.flatMap_nil]
  | cons b owners ih =>
    obtain ⟨hnew, hnodup⟩ := List.nodup_cons.mp hnodup
    obtain ⟨hfirst, hrest⟩ := List.forall_mem_cons.mp hpick
    have hothers : (owners.flatMap pick).Perm (l.filter fun a => !decide (owner a = id b)) := by
      refine ih hnodup (fun a ha => ?_) fun d hd => ?_
      · obtain ⟨ha, hne⟩ := List.mem_filter.mp ha
        exact (List.mem_cons.mp (howner a ha)).resolve_left (by simpa using hne)
      · have hne : id d ≠ id b := fun heq => hnew (heq ▸ List.mem_map_of_mem hd)
        refine (hrest d hd).trans (.of_eq ?_)
        rw [List.filter_filter]
        refine List.filter_congr fun a _ => ?_
        by_cases ha : owner a = id d <;> simp [ha, hne]
    rw [List.flatMap_cons]
    exact (hfirst.append hothers).trans (List.filter_append_perm _ l)

section Owned

variable {o : Ontology} {α : Type} {l : List α} {name : α → String} {package : α → PackageId}

/-- What is listed by name and then by package, and told apart by both, is in one package in strict order of names. -/
theorem pairwise_name_filter_package (hl : l.Pairwise fun a b => compare (name a) (name b) = .lt ∨
      name a = name b ∧ (compare (o.packageName (package a)) (o.packageName (package b))).isLE = true)
    (hnodup : l.Nodup)
    (hapart : ∀ a ∈ l, ∀ b ∈ l, o.typeOrder (name a, package a) (name b, package b) = .eq → a = b) (id : PackageId) :
    (l.filter fun a => package a = id).Pairwise fun a b => compare (name a) (name b) = .lt := by
  apply ((hl.and hnodup).filter _).imp_of_mem
  intro a b ha hb hab
  obtain ⟨ha, hida⟩ := List.mem_filter.mp ha
  obtain ⟨hb, hidb⟩ := List.mem_filter.mp hb
  refine hab.1.resolve_right fun hsame => hab.2 (hapart a ha b hb ?_)
  rw [Ontology.typeOrder, hsame.1, of_decide_eq_true hida, of_decide_eq_true hidb, Std.compare_self, Std.compare_self]
  rfl

end Owned

namespace Ontology

variable {o : Ontology}

/-- The classes of a package have different names. -/
theorem Distinct.pairwise_namedClasses (ho : o.Distinct) (id : PackageId) :
    (o.namedClasses id).Pairwise fun c d => compare c.name d.name = .lt := by
  have hperm := o.listing_sorted.classes_perm
  refine pairwise_name_filter_package o.listing_sorted.classes_sorted ?_ (fun c hc d hd => ?_) id
  · exact hperm.nodup_iff.mpr (.of_map _ ho.arena.class_names_nodup)
  · exact ho.class_eq_of_typeOrder (hperm.mem_iff.mp hc) (hperm.mem_iff.mp hd)

/-- The enumerations of a package have different names. -/
theorem Distinct.pairwise_namedEnums (ho : o.Distinct) (id : PackageId) :
    (o.namedEnums id).Pairwise fun e f => compare e.name f.name = .lt := by
  have hperm := o.listing_sorted.enums_perm
  refine pairwise_name_filter_package o.listing_sorted.enums_sorted ?_ (fun e he f hf => ?_) id
  · exact hperm.nodup_iff.mpr (.of_map _ ho.enums)
  · exact ho.enum_eq_of_typeOrder (hperm.mem_iff.mp he) (hperm.mem_iff.mp hf)

/-- What belongs to packages can be listed package by package. -/
theorem Arena.perm_flatMap_packages (ho : o.Arena) {α : Type} {l : List α} (owner : α → PackageId)
    {pick : Package → List α} (howner : ∀ a ∈ l, ∃ p, o.package? (owner a) = some p)
    (hpick : ∀ p, (pick p).Perm (l.filter fun a => owner a = p.id)) : (o.sortedPackages.flatMap pick).Perm l := by
  have hperm := o.listing_sorted.packages_perm
  refine perm_flatMap_owners Package.id ?_ (fun a ha => ?_) fun p _ => hpick p
  · have hindex {i : Nat} {p : Package} (hp : o.packages[i]? = some p) : p.id.index = i :=
      congrArg PackageId.index (ho.package_id (show o.package? ⟨i⟩ = some p from hp))
    have hids : (o.packages.map Package.id).Nodup := nodup_map_id PackageId.index fun _ _ hp => hindex hp
    exact (hperm.map _).nodup_iff.mpr hids
  · obtain ⟨p, hp⟩ := howner a ha
    exact List.mem_map.mpr ⟨p, hperm.mem_iff.mpr (List.mem_of_getElem? hp), ho.package_id hp⟩

end Ontology

/-- The module of one package as it is written: the siblings imported at the top, the classes and then the enumerations
in their final order, and the siblings imported at the tail. -/
structure Page where
  package : Package
  top : List String
  classes : List Class
  enums : List Enumeration
  tail : List String

/-- A page as the sheet of the name of its package. -/
def Page.sheet (g : Page) : Sheet :=
  ⟨g.package.name, g.top, g.classes.map .ofClass ++ g.enums.map .ofEnum, g.tail⟩

/-- The names of the package, the classes and the enumerations of a page. -/
def Page.names (g : Page) : String × List String × List String :=
  (g.package.name, g.classes.map Class.name, g.enums.map Enumeration.name)

namespace Backend

variable (b : Backend) (o : Ontology)

/-- The page of a package. -/
def page (p : Package) : Page where
  package := p
  top := ((b.modules o).get p.name).topImports.toList
  classes := sortOn (b.classDepth o) ((o.namedClasses p.id).filter fun c => b.shows o (.ofClass c))
  enums := (o.namedEnums p.id).filter fun e => b.shows o (.ofEnum e)
  tail := ((b.modules o).get p.name).tailImports.toList

/-- The pages of the packages that open a module, in order of names. -/
def pages : List Page := (o.sortedPackages.filter (b.opens o)).map (b.page o)

/-- The names on all pages, found without what the modules import. -/
def listing : List (String × List String × List String) :=
  (o.sortedPackages.filter (b.opens o)).map fun p =>
    (p.name, (sortOn (b.classDepth o) ((o.namedClasses p.id).filter fun c => b.shows o (.ofClass c))).map Class.name,
      ((o.namedEnums p.id).filter fun e => b.shows o (.ofEnum e)).map Enumeration.name)

/-- The file of a page. -/
def file (g : Page) : Emission := b.emission o g.sheet

variable {b o} {p : Package} {g : Page}

/-- Items are ordered as their blocks are. -/
def itemOrder (b : Backend) (o : Ontology) (package : String) (i j : Item) : Ordering :=
  CodeModule.blockOrder (b.block o package i) (b.block o package j)

instance (package : String) : Std.TransCmp (b.itemOrder o package) :=
  inferInstanceAs (Std.TransCmp (compareLex (compareOn fun i => (b.block o package i).rank)
    (compareOn fun i => (b.block o package i).depth)))

/-- In their final order classes are sorted by depth, and enumerations stay as they are behind them. -/
theorem mergeSort_items (package : String) (classes : List Class) (enums : List Enumeration) :
    (classes.map Item.ofClass ++ enums.map Item.ofEnum).mergeSort (fun i j => (b.itemOrder o package i j).isLE) =
      (sortOn (b.classDepth o) classes).map Item.ofClass ++ enums.map Item.ofEnum := by
  have hrank : ∀ i ∈ classes.map Item.ofClass, ∀ j ∈ enums.map Item.ofEnum,
      (b.itemOrder o package i j).isLE = true := by
    refine List.forall_mem_map.mpr fun c _ => List.forall_mem_map.mpr fun e _ => ?_
    refine CodeModule.isLE_blockOrder_of_rank_lt ?_
    rw [rank_block_ofClass]
    exact Nat.one_pos
  have hclasses : (classes.map Item.ofClass).mergeSort (fun i j => (b.itemOrder o package i j).isLE) =
      (sortOn (b.classDepth o) classes).map Item.ofClass := by
    refine (List.map_mergeSort fun c _ d _ => ?_).symm
    simp [itemOrder, CodeModule.blockOrder, rank_block_ofClass, depth_block_ofClass]
  have henums : (enums.map Item.ofEnum).mergeSort (fun i j => (b.itemOrder o package i j).isLE) =
      enums.map Item.ofEnum := by
    refine List.mergeSort_of_pairwise (List.pairwise_map.mpr (List.pairwise_of_forall fun e f => ?_))
    simp [itemOrder, CodeModule.blockOrder, block]
  rw [mergeSort_append hrank, hclasses, henums]

section Names

variable (ho : o.Wired) (hnames : (o.packages.map Package.name).Nodup)

include ho hnames

/-- The sheets are those of the pages, if packages have different names. -/
theorem sheets_eq_map_sheet : b.sheets o = (b.pages o).map Page.sheet := by
  rw [sheets, entries_modules ho.toArena hnames, pages, List.map_map, List.map_map]
  refine List.map_congr_left fun p hp => ?_
  have hmem : p ∈ o.packages := perm_sortOn.mem_iff.mp (List.mem_filter.mp hp).1
  have hitems : (b.shown o p.name).mergeSort (fun i j => (b.itemOrder o p.name i j).isLE) =
      (b.page o p).classes.map .ofClass ++ (b.page o p).enums.map .ofEnum := by
    rw [← filter_fills_eq_shown ho, filter_fills_eq ho.toArena hnames hmem, mergeSort_items]
    rfl
  exact congrArg (Sheet.mk p.name _ · _) hitems

/-- A backend that gathers modules writes the pages of the packages that open one. -/
theorem writes_pages (hb : b ≠ .packageRoot) :
    b.Writes o (b.generator.isRequired o = false) ((b.pages o).map (b.file o)) := by
  have hsheets := writes_sheets ho hb
  rwa [sheets_eq_map_sheet ho hnames, List.map_map] at hsheets

end Names

/-- A file starts with the header for the name of its package. -/
theorem exists_content_file_eq (b : Backend) (o : Ontology) (g : Page) :
    ∃ rest, (b.file o g).content = Text.closeLines (b.header o g.package.name) ++ rest :=
  CodeModule.exists_layout_eq _ _ _ _

/-- The names are those on the pages. -/
theorem map_names_pages : (b.pages o).map Page.names = b.listing o := List.map_map

/-- The packages with a page are those that open a module. -/
theorem mem_map_package_pages : p ∈ (b.pages o).map Page.package ↔ p ∈ o.packages ∧ b.opens o p = true := by
  rw [pages, List.map_map, show Page.package ∘ b.page o = id from rfl, List.map_id, List.mem_filter,
    o.listing_sorted.packages_perm.mem_iff]

/-- A page is that of a package that opens a module. -/
theorem exists_of_mem_pages (hg : g ∈ b.pages o) : ∃ p ∈ o.packages, b.opens o p = true ∧ b.page o p = g := by
  obtain ⟨p, hp, rfl⟩ := List.mem_map.mp hg
  obtain ⟨hmem, hopens⟩ := List.mem_filter.mp hp
  exact ⟨p, perm_sortOn.mem_iff.mp hmem, hopens, rfl⟩

/-- Pages come in order of the names of their packages. -/
theorem pairwise_pages (hnames : (o.packages.map Package.name).Nodup) :
    (b.pages o).Pairwise fun g h => compare g.package.name h.package.name = .lt :=
  List.pairwise_map.mpr ((pairwise_lt_sortOn hnames).filter (b.opens o))

/-- The classes on a page are those of its package that have a block. -/
theorem mem_classes_page {c : Class} :
    c ∈ (b.page o p).classes ↔ c ∈ o.classes ∧ c.package = p.id ∧ b.shows o (.ofClass c) = true := by
  rw [page, perm_sortOn.mem_iff, List.mem_filter, Ontology.namedClasses, List.mem_filter,
    o.listing_sorted.classes_perm.mem_iff, decide_eq_true_iff, and_assoc]

/-- The classes on a page come by depth and then by name. -/
theorem pairwise_classes_page (ho : o.Distinct) (p : Package) : (b.page o p).classes.Pairwise fun c d =>
    b.classDepth o c < b.classDepth o d ∨ b.classDepth o c = b.classDepth o d ∧ compare c.name d.name = .lt := by
  have hnamed := (ho.pairwise_namedClasses p.id).filter fun c => b.shows o (.ofClass c)
  apply (pairwise_mergeSort_of_pairwise (compareOn (b.classDepth o)) hnamed).imp
  simp [compareOn, Nat.compare_eq_lt]

end Backend

namespace DataModel

/-- A text renders a class: its statement, its doc, and a constructor that sets one attribute for each property that is
not hidden. -/
def RendersClass (o : Ontology) (c : Class) (base text : String) : Prop :=
  ∃ value : Property → String, text = Text.join "\n" (
    [ "class " ++ Naming.className c.name ++ "(" ++ base ++ "):",
      "    \"\"\"" ++ Docstring.body c.doc ++ "\n    \"\"\"",
      "",
      "    def __init__(self):",
      "        \"\"\"Instance constructor.\"\"\"" ] ++
    if (o.visibleProperties c.id).isEmpty then ["        pass"]
    else (o.visibleProperties c.id).map fun p => "        self." ++ Naming.attributeName p.name ++ " = " ++ value p)

/-- A text renders an enumeration: its statement, its doc, one line for each member, and whether it is open. -/
def RendersEnum (e : Enumeration) (text : String) : Prop :=
  ∃ value : EnumMember → String, text = Text.join "\n" (
    [ "class " ++ Naming.className e.name ++ "(enum.Enum):",
      "    \"\"\"" ++ Docstring.body e.doc ++ "\n    \"\"\"" ] ++
    (if e.members.isEmpty then ["    pass"] else []) ++
    List.zipWith (fun m constant => "    " ++ constant ++ " = " ++ value m) e.members
      (Naming.uniqueConstants (e.members.map EnumMember.name)) ++
    [ "", "", Naming.className e.name ++ ".is_open = " ++ if e.isOpen then "True" else "False" ])

/-- Pages that show an ontology completely and in order. -/
structure Complete (o : Ontology) (pages : List Page) : Prop where
  /-- Each package has one page. -/
  packages : (pages.map Page.package).Perm o.packages
  packages_sorted : pages.Pairwise fun g h => compare g.package.name h.package.name = .lt
  /-- Each class has one place on one page, that of its package. -/
  classes : (pages.flatMap Page.classes).Perm o.classes
  classes_own : ∀ g ∈ pages, ∀ c ∈ g.classes, c.package = g.package.id
  classes_sorted : ∀ g ∈ pages, g.classes.Pairwise fun c d =>
    o.depth c < o.depth d ∨ o.depth c = o.depth d ∧ compare c.name d.name = .lt
  /-- A class stands behind a base on the same page. -/
  base_first : ∀ g ∈ pages, ∀ c ∈ g.classes, ∀ b ∈ o.classes, c.base = some b.id → b.package = c.package →
    ∃ before after, g.classes = before ++ c :: after ∧ b ∈ before
  /-- The code of a class renders it, with a base on the same page under the name that it has there. -/
  classes_rendered : ∀ g ∈ pages, ∀ c ∈ g.classes, ∃ base,
    RendersClass o c base (Backend.dataModel.text o g.package.name (.ofClass c)) ∧
      ∀ b ∈ o.classes, c.base = some b.id → b.package = c.package → base = Naming.className b.name
  /-- Each enumeration has one place on one page, that of its package. -/
  enums : (pages.flatMap Page.enums).Perm o.enums
  enums_own : ∀ g ∈ pages, ∀ e ∈ g.enums, e.package = g.package.id
  enums_sorted : ∀ g ∈ pages, g.enums.Pairwise fun e f => compare e.name f.name = .lt
  /-- The code of an enumeration renders it. -/
  enums_rendered : ∀ g ∈ pages, ∀ e ∈ g.enums,
    RendersEnum e (Backend.dataModel.text o g.package.name (.ofEnum e))
  /-- A file starts with the header of its module. -/
  opened : ∀ g ∈ pages, ∃ rest, (Backend.dataModel.file o g).content =
    Text.closeLines (Backend.dataModel.header o g.package.name) ++ rest

variable {o : Ontology}

/-- A docstring stands indented between its delimiters. -/
theorem render_docstring (doc : String) :
    Docstring.render doc "    " = "    \"\"\"" ++ Docstring.body doc ++ "\n    \"\"\"" := by
  simp [Docstring.render, String.append_assoc]

/-- The code of a class renders it. -/
theorem rendersClass_text (o : Ontology) (c : Class) (package : String) :
    RendersClass o c (baseName o c package) (Backend.dataModel.text o package (.ofClass c)) := by
  have hattribute (p : Property) : attributeLine o c package p =
      "        self." ++ Naming.attributeName p.name ++ " = " ++ (initialValue o c p ++ "  # " ++
        pythonType o p.type package ++ " (" ++ p.cardinality.render ++ ")") := by
    unfold attributeLine
    simp only [String.append_assoc]
  refine ⟨fun p => initialValue o c p ++ "  # " ++ pythonType o p.type package ++ " (" ++
    p.cardinality.render ++ ")", ?_⟩
  have htext : Backend.dataModel.text o package (.ofClass c) = classText o c package := rfl
  simp only [htext, classText, render_docstring, List.isEmpty_map, funext hattribute]

/-- The code of an enumeration renders it. -/
theorem rendersEnum_text (o : Ontology) (e : Enumeration) (package : String) :
    RendersEnum e (Backend.dataModel.text o package (.ofEnum e)) := by
  have hmember : memberLine = fun m constant =>
      "    " ++ constant ++ " = " ++ (Json.quote m.name ++ memberComment m.doc) := by
    funext m constant
    unfold memberLine
    simp only [String.append_assoc]
  refine ⟨fun m => Json.quote m.name ++ memberComment m.doc, ?_⟩
  have htext : Backend.dataModel.text o package (.ofEnum e) = enumText e := rfl
  rw [htext, enumText, render_docstring, hmember]
  rfl

/-- A base in the same package is named by its class alone. -/
theorem baseName_eq (ho : o.Arena) {p : Package} (hp : p ∈ o.packages) {b c : Class} (hb : b ∈ o.classes)
    (hbase : c.base = some b.id) (hpackage : b.package = p.id) :
    baseName o c p.name = Naming.className b.name := by
  have hname : o.packageName b.package = p.name := by rw [hpackage, packageName_id ho hp]
  rw [baseName, hbase, Option.bind_some, ho.class?_of_mem hb]
  exact if_pos hname

end DataModel

namespace Schema

variable {s : Schema} {o : Ontology}

/-- In a built ontology a class is one deeper than its base. -/
theorem depth_eq_of_build (h : s.build = .ok o) {b c : Class} (hc : c ∈ o.classes) (hbase : c.base = some b.id) :
    o.depth c = o.depth b + 1 := by
  have hlineage := lineage_eq_of_build h c.id
  have hid : o.base? c.id = some b.id := by rw [Ontology.base?, (arena_of_build h).class?_of_mem hc, ← hbase]; rfl
  rw [Ontology.lineage, Ontology.inherited, hid] at hlineage
  rw [Ontology.depth, (List.cons.inj hlineage).2]
  rfl

/-- A base on the page of a class stands before the class. -/
theorem exists_eq_append_of_base (h : s.build = .ok o) {l : List Class} {b c : Class}
    (hsorted : l.Pairwise fun c d => o.depth c < o.depth d ∨ o.depth c = o.depth d ∧ compare c.name d.name = .lt)
    (hc : c ∈ o.classes) (hbase : c.base = some b.id) (hmem : c ∈ l) (hmem' : b ∈ l) :
    ∃ before after, l = before ++ c :: after ∧ b ∈ before := by
  have hdepth := depth_eq_of_build h hc hbase
  obtain ⟨before, after, rfl⟩ := List.append_of_mem hmem
  refine ⟨before, after, rfl, (List.mem_append.mp hmem').resolve_right fun hbehind => ?_⟩
  rcases List.mem_cons.mp hbehind with rfl | hafter
  · omega
  · have hlater := List.rel_of_pairwise_cons (List.pairwise_append.mp hsorted).2.1 hafter
    omega

/-- The pages of a built ontology show all of it in order. -/
theorem complete_pages_of_build (h : s.build = .ok o) (hnames : (s.packages.map Schema.Package.name).Nodup) :
    DataModel.Complete o (Backend.dataModel.pages o) := by
  have hd := distinct_of_build h hnames
  have hw := wired_of_build h
  have hpages : Backend.dataModel.pages o = o.sortedPackages.map (Backend.dataModel.page o) :=
    congrArg (List.map _) (List.filter_eq_self.mpr fun _ _ => rfl)
  have henums (p : OntologyCompiler.Package) : (Backend.dataModel.page o p).enums = o.namedEnums p.id :=
    List.filter_eq_self.mpr fun _ _ => rfl
  have hsorted := Backend.pairwise_classes_page (b := .dataModel) hd
  have hclass (p : OntologyCompiler.Package) (c : Class) :
      c ∈ (Backend.dataModel.page o p).classes ↔ c ∈ o.classes ∧ c.package = p.id := by
    rw [Backend.mem_classes_page]
    exact and_congr_right fun _ => and_iff_left rfl
  constructor
  case packages =>
    rw [hpages, List.map_map]
    exact (List.map_id o.sortedPackages).symm ▸ perm_sortOn
  case packages_sorted => exact Backend.pairwise_pages hd.packages
  case classes =>
    rw [hpages, List.flatMap_map]
    refine hd.arena.perm_flatMap_packages Class.package (fun c hc => ?_) fun p => ?_
    · exact hd.arena.class_package (hd.arena.class?_of_mem hc)
    · have hnamed : (Backend.dataModel.page o p).classes.Perm (o.namedClasses p.id) :=
        perm_sortOn.trans (.of_eq (List.filter_eq_self.mpr fun _ _ => rfl))
      exact hnamed.trans (o.listing_sorted.classes_perm.filter _)
  case enums =>
    rw [hpages, List.flatMap_map]
    simp only [henums]
    refine hd.arena.perm_flatMap_packages Enumeration.package (fun e he => ?_) fun p =>
      o.listing_sorted.enums_perm.filter _
    obtain ⟨i, hi⟩ := List.mem_iff_getElem?.mp he
    exact hw.enum_package (show o.enum? ⟨i⟩ = some e from hi)
  all_goals
    intro g hg
    obtain ⟨p, hp, -, rfl⟩ := Backend.exists_of_mem_pages hg
  case classes_own => exact fun c hc => ((hclass p c).mp hc).2
  case classes_sorted => exact hsorted p
  case base_first =>
    intro c hc b hb hbase hpackage
    obtain ⟨hmem, hown⟩ := (hclass p c).mp hc
    exact exists_eq_append_of_base h (hsorted p) hmem hbase hc ((hclass p b).mpr ⟨hb, hpackage.trans hown⟩)
  case classes_rendered =>
    intro c hc
    refine ⟨_, DataModel.rendersClass_text o c p.name, fun b hb hbase hpackage => ?_⟩
    exact DataModel.baseName_eq hd.arena hp hb hbase (hpackage.trans ((hclass p c).mp hc).2)
  case enums_own =>
    intro e he
    rw [henums] at he
    exact of_decide_eq_true (List.mem_filter.mp he).2
  case enums_sorted =>
    rw [henums]
    exact hd.pairwise_namedEnums p.id
  case enums_rendered => exact fun e _ => DataModel.rendersEnum_text o e p.name
  case opened => exact Backend.exists_content_file_eq _ _ _

/-- The data model backend writes the pages of an ontology whose packages have different names. -/
theorem writes_data_model_pages (ho : o.Wired) (hnames : (o.packages.map OntologyCompiler.Package.name).Nodup) :
    Backend.dataModel.Writes o False ((Backend.dataModel.pages o).map (Backend.dataModel.file o)) := by
  have hwrites := Backend.writes_pages ho hnames (b := .dataModel) (by decide)
  simpa [Backend.generator, DataModel.generator] using hwrites

/-- A run of the data model backend over a built ontology writes a page for each package, and the pages show all classes
and enumerations in order. -/
theorem data_model_written_of_build (h : s.build = .ok o) (hnames : (s.packages.map Schema.Package.name).Nodup) :
    Backend.dataModel.Writes o False ((Backend.dataModel.pages o).map (Backend.dataModel.file o)) ∧
      DataModel.Complete o (Backend.dataModel.pages o) := by
  have hpackages : (o.packages.map OntologyCompiler.Package.name).Nodup := (distinct_of_build h hnames).packages
  exact ⟨writes_data_model_pages (wired_of_build h) hpackages, complete_pages_of_build h hnames⟩

/-- Two packages, with a base that is listed after what derives from it. -/
def quarry : Schema :=
  ⟨"quarry", "1", "", [
    ⟨"pit", some "", some (.ofList [("ash", .object [("base", .text "pit.stone")]),
        ("stone", .object [("base", .null)])]),
      some (.ofList [("grade", .object [("members", .list [.text "fine"])])])⟩,
    ⟨"yard", some "", some (.ofList [("truck", .object [("base", .text "pit.ash")])]), none⟩]⟩

/-- The pages of the schema, with the classes and enumerations that they show. -/
theorem quarry_data_model_written : ∃ o, quarry.build = .ok o ∧
    Backend.dataModel.Writes o False ((Backend.dataModel.pages o).map (Backend.dataModel.file o)) ∧
      DataModel.Complete o (Backend.dataModel.pages o) ∧
        (Backend.dataModel.pages o).map Page.names =
          [("pit", ["stone", "ash"], ["grade"]), ("yard", ["truck"], [])] := by
  have hlisted : quarry.build.map Backend.dataModel.listing =
      .ok [("pit", ["stone", "ash"], ["grade"]), ("yard", ["truck"], [])] := by
    cbv
  obtain ⟨o, ho, heq⟩ := Declaration.map_eq_ok.mp hlisted
  obtain ⟨hwrites, hcomplete⟩ := data_model_written_of_build ho (by decide)
  exact ⟨o, ho, hwrites, hcomplete, Backend.map_names_pages.trans heq⟩

end Schema

end OntologyCompiler
