import OntologyCompiler.Proofs.Literals.Reading
import OntologyCompiler.Proofs.Modules.Pages

/-!
# Modules of functions

Two backends write a function for some of the classes of a package, in a module that they open when they come to the
package. Functions come later, class by class. A module is opened exactly if a class of the package gets a function, so
no function lacks a header and no header stands alone. Which classes get a decoding function is a question about
effective decodings, whether any module is written at all one about declared ones. The two agree: an effective decoding
is declared somewhere, and what is declared is effective in its own class. A decoding has a line of its own, with its
property, its rule and its override as literals, which can be read back.
-/

namespace OntologyCompiler

namespace Backend

/-- Pages with a function for each class that is to have one, and with nothing else. What the code of a function is to
be is a question about the name of the package, the class and the code. -/
structure ShowsFunctions (b : Backend) (o : Ontology) (wanted : Class → Prop) (renders : String → Class → String → Prop)
    (pages : List Page) : Prop where
  /-- The packages with a page are those with a class that is to have a function. -/
  packages : ∀ p, p ∈ pages.map Page.package ↔ p ∈ o.packages ∧ ∃ c ∈ o.classes, c.package = p.id ∧ wanted c
  packages_sorted : pages.Pairwise fun g h => compare g.package.name h.package.name = .lt
  /-- Each such class of the package has one function. -/
  classes : ∀ g ∈ pages, ∀ c, c ∈ g.classes ↔ c ∈ o.classes ∧ c.package = g.package.id ∧ wanted c
  classes_sorted : ∀ g ∈ pages, g.classes.Pairwise fun c d => compare c.name d.name = .lt
  filled : ∀ g ∈ pages, g.classes ≠ []
  bare : ∀ g ∈ pages, g.top = [] ∧ g.enums = [] ∧ g.tail = []
  rendered : ∀ g ∈ pages, ∀ c ∈ g.classes, renders g.package.name c (b.text o g.package.name (.ofClass c))
  /-- A file starts with the header of its module. -/
  opened : ∀ g ∈ pages, ∃ rest, (b.file o g).content = Text.closeLines (b.header o g.package.name) ++ rest

/-- A run of the backend writes its pages, if it is not skipped, and they have all functions that are wanted. -/
def WritesFunctions (b : Backend) (o : Ontology) (skipped : Prop) (wanted : Class → Prop)
    (renders : String → Class → String → Prop) : Prop :=
  b.Writes o skipped ((b.pages o).map (b.file o)) ∧ b.ShowsFunctions o wanted renders (b.pages o)

variable {b : Backend} {o : Ontology} {wanted : Class → Prop} {renders : String → Class → String → Prop}

/-- The pages of a backend other than that of the data model have a function for each class that adds a block. -/
theorem showsFunctions_pages (hd : o.Distinct) (hb : b ≠ .dataModel)
    (hwanted : ∀ c, b.shows o (.ofClass c) = true ↔ wanted c)
    (hrenders : ∀ package c, renders package c (b.text o package (.ofClass c))) :
    b.ShowsFunctions o wanted renders (b.pages o) := by
  have hopens {p : Package} (hp : p ∈ o.packages) :
      b.opens o p = true ↔ ∃ c ∈ o.classes, c.package = p.id ∧ wanted c := by
    simp only [opens_iff hd.arena hp, or_iff_right hb, hwanted]
  have hclass (p : Package) (c : Class) :
      c ∈ (b.page o p).classes ↔ c ∈ o.classes ∧ c.package = p.id ∧ wanted c := by
    rw [mem_classes_page, hwanted]
  have hdepth (c : Class) : b.classDepth o c = 0 := by
    cases b with
    | dataModel => exact absurd rfl hb
    | _ => rfl
  constructor
  case packages => exact fun p => mem_map_package_pages.trans (and_congr_right hopens)
  case packages_sorted => exact pairwise_pages hd.packages
  all_goals
    intro g hg
    obtain ⟨p, hp, hopen, rfl⟩ := exists_of_mem_pages hg
  case classes => exact hclass p
  case classes_sorted =>
    refine (pairwise_classes_page hd p).imp fun hcd => ?_
    simpa [hdepth] using hcd
  case filled =>
    obtain ⟨c, hc⟩ := (hopens hp).mp hopen
    exact List.ne_nil_of_mem ((hclass p c).mpr hc)
  case bare =>
    obtain ⟨heager, himports, hdeferred⟩ := imports_get_modules (o := o) hb p.name
    have hsiblings : ((b.modules o).get p.name).topImports.toList = [] ∧
        ((b.modules o).get p.name).tailImports.toList = [] := by
      rw [CodeModule.tailImports, CodeModule.topImports, heager, himports, hdeferred]
      exact ⟨rfl, rfl⟩
    have henums : (b.page o p).enums = [] := List.filter_eq_nil_iff.mpr fun e _ hshows => hb (beq_iff_eq.mp hshows)
    exact ⟨hsiblings.1, henums, hsiblings.2⟩
  case rendered => exact fun c _ => hrenders p.name c
  case opened => exact exists_content_file_eq _ _ _

end Backend

namespace DecodingRules

variable {o : Ontology} {package : String}

/-- The Python types of scalars. -/
def scalarTypes : List (ScalarKind × String) := [
  (.bool, "bool"), (.date, "datetime.date"), (.datetime, "datetime.datetime"), (.float, "float"), (.int, "int"),
  (.str, "str"), (.uri, "str"), (.uuid, "uuid.UUID"), (.unicode, "str")]

/-- The name of a type without its package. -/
def bareName (t : ValueType) : String := (t.qualifiedParts.map Prod.snd).getD t.name

/-- The name of the package of a class or an enumeration. -/
def ownerName (o : Ontology) (entity : EntityId) : String := ((o.entityPackage? entity).map o.packageName).getD ""

/-- How a type is called in a module of a package: a scalar by its Python type, what is unresolved by its name in
apostrophes, and a class or an enumeration by its own name, behind its module if that is of another package. -/
inductive Calls (o : Ontology) (package : String) (t : ValueType) : String → Prop where
  | scalar {kind : ScalarKind} {name : String} (htarget : t.target = .scalar kind)
      (hname : (kind, name) ∈ scalarTypes) : Calls o package t name
  | unresolved {name : String} (htarget : t.target = .unresolved name) : Calls o package t ("'" ++ name ++ "'")
  | own {entity : EntityId} (htarget : t.target = .resolved entity) (howner : ownerName o entity = package) :
      Calls o package t (Naming.className (bareName t))
  | foreign {entity : EntityId} (htarget : t.target = .resolved entity) (howner : ownerName o entity ≠ package) :
      Calls o package t (Naming.snake (ownerName o entity) ++ "_typeset." ++ Naming.className (bareName t))

/-- The type that takes the place of the declared one, as a literal: its name, or nothing if there is none. -/
inductive Overrides (o : Ontology) (package : String) : Option ValueType → String → Prop where
  | absent : Overrides o package none "None"
  | present {t : ValueType} {name target : String} (hcalls : Calls o package t name)
      (hread : Literal.read target = some (.text name)) : Overrides o package (some t) target

/-- A line lists a decoding: its property, its rule and its override. -/
structure Lists (o : Ontology) (package : String) (d : Decoding) (line : String) : Prop where
  parts : ∃ property rule target, line = "        (" ++ property ++ ", " ++ rule ++ ", " ++ target ++ ")," ∧
    Literal.read property = some (.text d.property) ∧ Literal.read rule = some (.text d.rule) ∧
      Overrides o package d.overrideType target
  unbroken : '\n' ∉ line.toList

/-- A text renders the decoding function of a class, with one line for each effective decoding, in order. -/
def RendersFunction (o : Ontology) (package : String) (c : Class) (text : String) : Prop :=
  ∃ rules, List.Forall₂ (Lists o package) (o.allDecodings c.id) rules ∧ text = Text.join "\n" (
    [ "def decode_" ++ Naming.attributeName c.name ++ "():",
      "    \"\"\"Decoding rules of " ++ c.qualifiedName ++ ".\"\"\"",
      "    rules = [" ] ++
    rules ++
    [ "    ]", "    return typeset." ++ Naming.className c.name ++ ", rules" ])

/-- A type is called by its Python type. -/
theorem calls_pythonType (o : Ontology) (package : String) (t : ValueType) :
    Calls o package t (DataModel.pythonType o t package) := by
  unfold DataModel.pythonType
  split
  next kind htarget =>
    refine .scalar htarget ?_
    cases kind <;> decide
  next name htarget => exact .unresolved htarget
  next entity htarget =>
    change Calls o package t (DataModel.qualify (ownerName o entity) package (Naming.className (bareName t)))
    by_cases howner : ownerName o entity = package
    · rw [DataModel.qualify, if_pos howner]
      exact .own htarget howner
    · have hname : DataModel.moduleOf (ownerName o entity) ++ "." ++ Naming.className (bareName t) =
          Naming.snake (ownerName o entity) ++ "_typeset." ++ Naming.className (bareName t) := by
        simp [DataModel.moduleOf_eq, String.append_assoc]
      rw [DataModel.qualify, if_neg howner, hname]
      exact .foreign htarget howner

/-- A rule has one line, as all that it shows of the schema is quoted. -/
theorem lineFeed_notMem_ruleLine (package : String) (d : Decoding) : '\n' ∉ (ruleLine o package d).toList := by
  have hplain : '\n' ∉ "        (".toList ∧ '\n' ∉ ", ".toList ∧ '\n' ∉ "),".toList ∧ '\n' ∉ "None".toList := by decide
  obtain ⟨hstart, hcomma, hstop, hnone⟩ := hplain
  have hproperty := Text.notMem_append hstart (Json.visible_quote d.property).lineFeed_notMem
  have hrule := Text.notMem_append (Text.notMem_append hproperty hcomma) (Json.visible_quote d.rule).lineFeed_notMem
  refine Text.notMem_append (Text.notMem_append (Text.notMem_append hrule hcomma) ?_) hstop
  cases d.overrideType with
  | none => exact hnone
  | some t => exact (Json.visible_quote _).lineFeed_notMem

/-- The line of a rule lists its decoding: what is quoted is read back. -/
theorem lists_ruleLine (o : Ontology) (package : String) (d : Decoding) : Lists o package d (ruleLine o package d) := by
  refine ⟨⟨_, _, _, rfl, Literal.read_render (.text d.property), Literal.read_render (.text d.rule), ?_⟩,
    lineFeed_notMem_ruleLine package d⟩
  cases d.overrideType with
  | none => exact .absent
  | some t => exact .present (calls_pythonType o package t) (Literal.read_render (.text _))

/-- The code of a decoding function renders it. -/
theorem rendersFunction_text (o : Ontology) (package : String) (c : Class) :
    RendersFunction o package c (Backend.decodingRules.text o package (.ofClass c)) := by
  refine ⟨(o.allDecodings c.id).map (ruleLine o package), ?_, rfl⟩
  rw [List.forall₂_map_right_iff]
  exact List.forall₂_same.mpr fun d _ => lists_ruleLine o package d

end DecodingRules

namespace InstanceChecks

/-- A text renders the checking function of a class: it collects the errors of an instance of the class, with some lines
for each property that is not hidden. -/
def RendersFunction (o : Ontology) (c : Class) (text : String) : Prop :=
  ∃ checks : Property → List String, text = Text.join "\n" (
    [ "def validate_" ++ Naming.attributeName c.name ++ "(instance):",
      "    \"\"\"Validates an instance of " ++ c.qualifiedName ++ ".\"\"\"",
      "    errors = []",
      "    if not isinstance(instance, typeset." ++ Naming.className c.name ++ "):",
      "        return [\"expected an instance of " ++ c.qualifiedName ++ "\"]" ] ++
    (o.visibleProperties c.id).flatMap checks ++
    [ "    return errors" ])

/-- The code of a checking function renders it. -/
theorem rendersFunction_text (o : Ontology) (package : String) (c : Class) :
    RendersFunction o c (Backend.instanceChecks.text o package (.ofClass c)) := ⟨propertyLines c, rfl⟩

end InstanceChecks

namespace Schema

variable {s : Schema} {o : Ontology}

/-- A run of the decoding backend over a built ontology is skipped exactly if no class has an effective decoding, and
else writes one function for each class that has some. A run of the checking backend writes one function for each class
that is not abstract. -/
theorem functions_written_of_build (h : s.build = .ok o) (hnames : (s.packages.map Schema.Package.name).Nodup) :
    Backend.decodingRules.WritesFunctions o (∀ c ∈ o.classes, o.allDecodings c.id = [])
      (fun c => o.allDecodings c.id ≠ []) (DecodingRules.RendersFunction o) ∧
    Backend.instanceChecks.WritesFunctions o False (fun c => c.isAbstract = false)
      (fun _ => InstanceChecks.RendersFunction o) := by
  have hw := wired_of_build h
  have hd := distinct_of_build h hnames
  refine ⟨⟨?_, ?_⟩, ⟨?_, ?_⟩⟩
  · have hskipped : (Backend.decodingRules.generator.isRequired o = false) =
        ∀ c ∈ o.classes, o.allDecodings c.id = [] := by
      rw [Backend.isRequired_eq_false_iff hw.toArena, and_iff_right rfl]
    exact hskipped ▸ Backend.writes_pages hw hd.packages (by decide)
  · refine Backend.showsFunctions_pages hd (by decide) (fun c => ?_) (DecodingRules.rendersFunction_text o)
    simp [Backend.shows]
  · have hskipped : (Backend.instanceChecks.generator.isRequired o = false) = False := by
      rw [Backend.isRequired_eq_false_iff hw.toArena]
      simp
    exact hskipped ▸ Backend.writes_pages hw hd.packages (by decide)
  · refine Backend.showsFunctions_pages hd (by decide) (fun c => ?_) (InstanceChecks.rendersFunction_text o)
    simp [Backend.shows]

/-- An abstract class whose decoding is inherited in another package. -/
def kiln : Schema :=
  ⟨"kiln", "1", "", [
    ⟨"clay", some "", some (.ofList [("form", .object [("base", .null), ("is_abstract", .boolean true),
      ("decodings", .list [.list [.text "glaze", .text "child::glaze"]])])]), none⟩,
    ⟨"shop", some "", some (.ofList [("bowl", .object [("base", .text "clay.form")]),
      ("sign", .object [("base", .null)])]), none⟩]⟩

/-- The pages of both backends for the schema, with the classes that have a function there. -/
theorem kiln_functions_written : ∃ o, kiln.build = .ok o ∧
    (Backend.decodingRules.WritesFunctions o (∀ c ∈ o.classes, o.allDecodings c.id = [])
      (fun c => o.allDecodings c.id ≠ []) (DecodingRules.RendersFunction o) ∧
    Backend.instanceChecks.WritesFunctions o False (fun c => c.isAbstract = false)
      (fun _ => InstanceChecks.RendersFunction o)) ∧
    (Backend.decodingRules.pages o).map Page.names = [("clay", ["form"], []), ("shop", ["bowl"], [])] ∧
    (Backend.instanceChecks.pages o).map Page.names = [("shop", ["bowl", "sign"], [])] := by
  have hlisted : kiln.build.map (fun o => (Backend.decodingRules.listing o, Backend.instanceChecks.listing o)) =
      .ok ([("clay", ["form"], []), ("shop", ["bowl"], [])], [("shop", ["bowl", "sign"], [])]) := by
    cbv
  obtain ⟨o, ho, heq⟩ := Declaration.map_eq_ok.mp hlisted
  obtain ⟨hdecode, hcheck⟩ := Prod.mk.inj heq
  exact ⟨o, ho, functions_written_of_build ho (by decide), Backend.map_names_pages.trans hdecode,
    Backend.map_names_pages.trans hcheck⟩

end Schema

end OntologyCompiler
