import OntologyCompiler.Proofs.Fingerprint.Derived
import OntologyCompiler.Proofs.Generation.Closure
import OntologyCompiler.Proofs.Modules.Lines
import OntologyCompiler.Proofs.Modules.Sheets

/-!
# Docstrings of generated files

Texts of a schema come into docstrings by three ways. The docs of classes and enumerations are softened and stand in
front of a line feed, the qualified names in functions have no quotes at all. The header of a module has the version as
it is, and a version may be any text that is not blank. So all docstrings close where they were closed exactly if there
are no three quotes in a row in the version.
-/

namespace OntologyCompiler

/-- The docstring at the start of a module as one line. -/
def CodeModule.docLine (o : Ontology) (title : String) : CodeLine :=
  .docstring "" ("\n.. module:: " ++ title ++ "\n   :synopsis: " ++ o.name ++ " v" ++ o.version ++
    ".\n\n   Auto-generated, do not edit.\n")

/-- The docstring of a block as one line. -/
def Docstring.line (doc indent : String) : CodeLine := .docstring indent (body doc ++ "\n" ++ indent)

/-- The lines of a class. -/
def DataModel.classLines (o : Ontology) (c : Class) (package : String) : List CodeLine :=
  let attributes := (o.visibleProperties c.id).map (attributeLine o c package)
  [ .code ("class " ++ Naming.className c.name ++ "(" ++ baseName o c package ++ "):"),
    Docstring.line c.doc "    ",
    .code "",
    .code "    def __init__(self):",
    .docstring "        " "Instance constructor." ] ++
  (if attributes.isEmpty then ["        pass"] else attributes).map .code

/-- The lines of an enumeration. -/
def DataModel.enumLines (e : Enumeration) : List CodeLine :=
  let name := Naming.className e.name
  [ .code ("class " ++ name ++ "(enum.Enum):"), Docstring.line e.doc "    " ] ++
  ((if e.members.isEmpty then ["    pass"] else []) ++
    List.zipWith memberLine e.members (Naming.uniqueConstants (e.members.map EnumMember.name)) ++
    [ "", "", name ++ ".is_open = " ++ Literal.flag e.isOpen ]).map .code

/-- The lines of a decoding function. -/
def DecodingRules.functionLines (o : Ontology) (c : Class) (package : String) : List CodeLine :=
  [ CodeLine.code ("def decode_" ++ Naming.attributeName c.name ++ "():"),
    CodeLine.docstring "    " ("Decoding rules of " ++ c.qualifiedName ++ ".") ] ++
  (["    rules = ["] ++ (o.allDecodings c.id).map (ruleLine o package) ++
    [ "    ]", "    return typeset." ++ Naming.className c.name ++ ", rules" ]).map .code

/-- The lines of a checking function. -/
def InstanceChecks.functionLines (o : Ontology) (c : Class) : List CodeLine :=
  [ CodeLine.code ("def validate_" ++ Naming.attributeName c.name ++ "(instance):"),
    CodeLine.docstring "    " ("Validates an instance of " ++ c.qualifiedName ++ ".") ] ++
  ([ "    errors = []",
      "    if not isinstance(instance, typeset." ++ Naming.className c.name ++ "):",
      "        return [\"expected an instance of " ++ c.qualifiedName ++ "\"]" ] ++
    (o.visibleProperties c.id).flatMap (propertyLines c) ++ [ "    return errors" ]).map .code

/-- The lines of the root module. -/
def PackageRoot.codeLines (o : Ontology) (listing : List String) : List CodeLine :=
  CodeModule.docLine o (Naming.snake o.name) ::
    ([""] ++ (imports o).map CodeModule.importLine ++
      ["", "", "NAME = " ++ Json.quote o.name, "VERSION = " ++ Json.quote o.version, "", "ENTITIES = ("] ++
      (listing.map fun line => "    " ++ line ++ ",") ++ [")", ""]).map .code

/-- A file as it is written, line by line. -/
structure Document where
  filename : String
  lines : List CodeLine

/-- The file as a writer gets it. -/
def Document.emission (o : Ontology) (d : Document) : Emission :=
  ⟨CodeLine.spell d.lines, CodeModules.directory o, d.filename⟩

namespace Backend

variable (b : Backend) (o : Ontology)

/-- The lines of an item in the module of a name. -/
def itemLines (package : String) : Item → List CodeLine
  | .ofClass c =>
    match b with
    | .dataModel => DataModel.classLines o c package
    | .decodingRules => DecodingRules.functionLines o c package
    | .instanceChecks => InstanceChecks.functionLines o c
    | .packageRoot => [.code ""]
  | .ofEnum e => DataModel.enumLines e

/-- The document of a sheet. -/
def document (g : Sheet) : Document where
  filename := Naming.fileName g.package b.suffix
  lines := CodeModule.layoutLines
    (CodeModule.docLine o (Naming.moduleName g.package b.suffix) :: (b.preamble g.package).map .code)
    g.top (g.items.map (b.itemLines o g.package)) g.tail

/-- The files of a backend. -/
def documents : List Document :=
  match b with
  | .packageRoot => [⟨"__init__.py", PackageRoot.codeLines o (b.draft o default).listing⟩]
  | .dataModel | .decodingRules | .instanceChecks => (b.sheets o).map (b.document o)

end Backend

section Spelling

variable {o : Ontology} {b : Backend} {g : Sheet}

open CodeLine

/-- The docstring of a module has the first six lines of its header. -/
theorem CodeModule.closeLines_docHeader (title : String) :
    Text.closeLines (docHeader o title) = Text.closeLines [(docLine o title).render] := by
  apply String.toList_injective
  simp [Text.closeLines, docHeader, docLine, CodeLine.render, String.toList_append]

/-- A docstring of a block is written as one line of code would be. -/
theorem Docstring.render_line (doc indent : String) : (line doc indent).render = render doc indent := by
  simp [line, CodeLine.render, render, String.append_assoc]

/-- Lines of code are written as they are. -/
theorem CodeLine.map_render_code (lines : List String) : (lines.map code).map render = lines := by
  rw [List.map_map]
  exact List.map_id lines

/-- The docstring of a function is written on one line. -/
theorem CodeLine.render_docstring_append (indent opening name : String) :
    (docstring indent (opening ++ name ++ ".")).render =
      indent ++ "\"\"\"" ++ opening ++ name ++ (".\"\"\"" : String) := by
  apply String.toList_injective
  simp [render, String.toList_append]

/-- The code of an item is that of its lines. -/
theorem Backend.spell_itemLines (package : String) (i : Item) :
    spell (b.itemLines o package i) = b.text o package i := by
  unfold itemLines text block
  cases i with
  | ofEnum e =>
    simp only [spell, DataModel.enumLines, List.map_append, map_render_code, List.map_cons, List.map_nil,
      Docstring.render_line, DataModel.enumText]
    simp only [render, List.append_assoc]
  | ofClass c =>
    cases b with
    | dataModel =>
      simp only [spell, DataModel.classLines, List.map_append, map_render_code, List.map_cons, List.map_nil,
        Docstring.render_line, DataModel.classText]
      rfl
    | decodingRules =>
      simp only [spell, DecodingRules.functionLines, List.map_append, map_render_code, List.map_cons, List.map_nil,
        render_docstring_append, DecodingRules.functionText]
      rfl
    | instanceChecks =>
      simp only [spell, InstanceChecks.functionLines, List.map_append, map_render_code, List.map_cons, List.map_nil,
        render_docstring_append, InstanceChecks.functionText]
      rfl
    | packageRoot => rfl

/-- The lines of an item are there. -/
theorem Backend.itemLines_ne_nil (package : String) (i : Item) : b.itemLines o package i ≠ [] := by
  unfold itemLines
  cases i with
  | ofEnum e => exact List.cons_ne_nil _ _
  | ofClass c => cases b <;> exact List.cons_ne_nil _ _

/-- A document is the file of its sheet. -/
theorem Backend.emission_document (g : Sheet) : (b.document o g).emission o = b.emission o g := by
  have hheader : Text.closeLines (b.header o g.package) = Text.closeLines
      ((CodeModule.docLine o (Naming.moduleName g.package b.suffix) ::
        (b.preamble g.package).map code).map render) := by
    rw [List.map_cons, map_render_code, header_eq, Text.closeLines_append, CodeModule.closeLines_docHeader,
      ← Text.closeLines_append, List.singleton_append]
  have hblocks : ∀ block ∈ g.items.map (b.itemLines o g.package), block ≠ [] :=
    List.forall_mem_map.mpr fun i _ => itemLines_ne_nil g.package i
  have hlayout := CodeModule.layout_eq_spell g.top g.tail hheader hblocks
  rw [List.map_map] at hlayout
  rw [Document.emission, document, ← hlayout, emission, fileName_eq]
  congr 2
  exact List.map_congr_left fun i _ => spell_itemLines g.package i

/-- The root module is its lines. -/
theorem PackageRoot.spell_codeLines (o : Ontology) (listing : List String) :
    spell (codeLines o listing) = render o listing := by
  have hcode : codeLines o listing ≠ [] := List.cons_ne_nil _ _
  have hfilled : lines o listing ≠ [] := by simp [lines]
  apply String.toList_injective
  refine (List.append_left_inj "\n".toList).mp ?_
  rw [← String.toList_append, ← String.toList_append, spell_append_eq_closeLines hcode, render_eq,
    Text.join_append_eq_closeLines hfilled, codeLines, List.map_cons, map_render_code, lines]
  simp only [List.append_assoc]
  rw [Text.closeLines_append, CodeModule.closeLines_docHeader, ← Text.closeLines_append]
  rfl

/-- What a backend has gathered does not depend on the options. -/
theorem Backend.draft_eq (options options' : GenerationOptions) : b.draft o options = b.draft o options' := by
  have hvisit (d : Draft) (v : Visit) : b.generator.visit o options v d = b.generator.visit o options' v d := by
    cases b <;> rfl
  simp only [draft, Generator.after, hvisit]

/-- A backend writes its documents. -/
theorem Backend.writes_documents (ho : o.Wired) (b : Backend) :
    b.Writes o (b.generator.isRequired o = false) ((b.documents o).map (Document.emission o)) := by
  have hsheets (hb : b ≠ .packageRoot) :
      b.Writes o (b.generator.isRequired o = false) (((b.sheets o).map (b.document o)).map (Document.emission o)) := by
    have hemissions : ((b.sheets o).map (b.document o)).map (Document.emission o) =
        (b.sheets o).map (b.emission o) := by
      rw [List.map_map]
      exact List.map_congr_left fun g _ => emission_document g
    exact hemissions ▸ writes_sheets ho hb
  cases b with
  | dataModel => exact hsheets (by decide)
  | decodingRules => exact hsheets (by decide)
  | instanceChecks => exact hsheets (by decide)
  | packageRoot =>
    refine writes_of_output Iff.rfl fun options => ?_
    have hrequired : Backend.packageRoot.generator.isRequired o = true := rfl
    rw [Generator.output, if_pos hrequired, emissions_eq, draft_eq options default, documents, List.map_singleton,
      Document.emission, PackageRoot.spell_codeLines]
    rfl

end Spelling

namespace Docstring

/-- The docstring of a block fits: the doc is softened, and a line feed stands behind it. -/
theorem fits_line (doc : String) {indent : String} (h : '"' ∉ indent.toList) : (line doc indent).Fits := by
  have hbehind : '"' ∉ '\n' :: indent.toList := List.not_mem_cons_of_ne_of_not_mem (by decide) h
  have hchars : (body doc ++ "\n" ++ indent).toList = (body doc).toList ++ '\n' :: indent.toList := by
    simp [String.toList_append]
  change Fits (body doc ++ "\n" ++ indent).toList
  rw [hchars, fits_append_cons_iff (by decide)]
  exact ⟨not_delimiter_infix_body doc, fits_of_notMem hbehind⟩

/-- The docstring of a function fits if the name in it has no quotes. -/
theorem fits_append {indent opening name : String} (hopening : '"' ∉ opening.toList) (hname : '"' ∉ name.toList) :
    (CodeLine.docstring indent (opening ++ name ++ ".")).Fits := by
  have hquote : '"' ∉ (opening ++ name ++ ".").toList :=
    Text.notMem_append (Text.notMem_append hopening hname) (by decide)
  exact fits_of_notMem hquote

end Docstring

/-- The docstring of a module fits exactly if there are no three quotes in a row in the version. -/
theorem CodeModule.fits_docLine_iff {o : Ontology} {title : String} (htitle : '"' ∉ title.toList)
    (hname : '"' ∉ o.name.toList) : (docLine o title).Fits ↔ ¬ Docstring.delimiter <:+: o.version.toList := by
  let opening := "\n.. module:: " ++ title ++ "\n   :synopsis: " ++ o.name ++ " v"
  have hopening : '"' ∉ opening.toList := by
    refine Text.notMem_append (Text.notMem_append (Text.notMem_append (Text.notMem_append ?_ htitle) ?_) hname) ?_
    all_goals decide
  have hchars : (opening ++ o.version ++ ".\n\n   Auto-generated, do not edit.\n").toList =
      opening.toList ++ o.version.toList ++ '.' :: "\n\n   Auto-generated, do not edit.\n".toList := by
    rw [String.toList_append, String.toList_append]
    rfl
  change Docstring.Fits (opening ++ o.version ++ ".\n\n   Auto-generated, do not edit.\n").toList ↔ _
  rw [hchars, Docstring.fits_append_cons_iff (by decide), Docstring.delimiter_infix_append_iff hopening]
  exact and_iff_left (Docstring.fits_of_notMem (by decide))

namespace Backend

variable {b : Backend} {o : Ontology} {g : Sheet} {i : Item}

/-- Lines of code fit. -/
theorem fits_of_mem_code {lines : List String} : ∀ line ∈ lines.map CodeLine.code, line.Fits :=
  List.forall_mem_map.mpr fun _ _ => trivial

/-- The docstrings of an item fit if the name of a class has no quotes. -/
theorem fits_of_mem_itemLines {package : String} (hname : ∀ c, i = .ofClass c → '"' ∉ c.qualifiedName.toList) :
    ∀ line ∈ b.itemLines o package i, line.Fits := by
  have hindent : '"' ∉ "    ".toList := by decide
  unfold itemLines
  cases i with
  | ofEnum e =>
    refine List.forall_mem_append.mpr ⟨?_, fits_of_mem_code⟩
    simpa [CodeLine.Fits] using Docstring.fits_line e.doc hindent
  | ofClass c =>
    have hclass := hname c rfl
    cases b with
    | dataModel =>
      refine List.forall_mem_append.mpr ⟨?_, fits_of_mem_code⟩
      have hconstructor : (CodeLine.docstring "        " "Instance constructor.").Fits :=
        Docstring.fits_of_notMem (by decide)
      simp only [List.forall_mem_cons]
      exact ⟨trivial, Docstring.fits_line c.doc hindent, trivial, trivial, hconstructor, nofun⟩
    | decodingRules =>
      refine List.forall_mem_append.mpr ⟨?_, fits_of_mem_code⟩
      simp only [List.forall_mem_cons]
      exact ⟨trivial, Docstring.fits_append (by decide) hclass, nofun⟩
    | instanceChecks =>
      refine List.forall_mem_append.mpr ⟨?_, fits_of_mem_code⟩
      simp only [List.forall_mem_cons]
      exact ⟨trivial, Docstring.fits_append (by decide) hclass, nofun⟩
    | packageRoot => exact List.forall_mem_singleton.mpr trivial

/-- A document starts with the docstring of its module, whose title has no quotes, and all docstrings behind it fit. -/
theorem exists_docLine_of_mem_documents (ho : o.Wired) (hpackages : ∀ p ∈ o.packages, Grammar.isName p.name = true)
    (hname : Grammar.isName o.name = true) (hclasses : ∀ c ∈ o.classes, '"' ∉ c.qualifiedName.toList) {d : Document}
    (hd : d ∈ b.documents o) : ∃ title rest, d.lines = CodeModule.docLine o title :: rest ∧ '"' ∉ title.toList ∧
      ∀ line ∈ rest, line.Fits := by
  have hquote {s : String} (hs : Grammar.isName s = true) : '"' ∉ s.toList :=
    (Grammar.plain_of_isName hs).notMem (by decide)
  have hsheet (hb : b ≠ .packageRoot) (hd : d ∈ (b.sheets o).map (b.document o)) : ∃ title rest,
      d.lines = CodeModule.docLine o title :: rest ∧ '"' ∉ title.toList ∧ ∀ line ∈ rest, line.Fits := by
    obtain ⟨g, hg, rfl⟩ := List.mem_map.mp hd
    have hpresents := presents_sheets ho b
    obtain ⟨p, hp, -, hpackage⟩ := (hpresents.packages g.package).mp ⟨g, hg, rfl⟩
    have htitle : '"' ∉ (Naming.moduleName g.package b.suffix).toList := by
      rw [Naming.moduleName, ← hpackage, Naming.snake_eq_self (hpackages p hp)]
      refine Text.notMem_append (hquote (hpackages p hp)) (Text.notMem_append (by decide) ?_)
      cases b <;> decide
    refine ⟨_, _, rfl, htitle, ?_⟩
    refine CodeModule.forall_mem_layoutLines (fun _ => trivial) fits_of_mem_code ?_
    refine List.forall_mem_map.mpr fun i hi => fits_of_mem_itemLines ?_
    rintro c rfl
    exact hclasses c (Ontology.ofClass_mem_items.mp ((hpresents.items g hg _).mp hi).1)
  cases b with
  | dataModel => exact hsheet (by decide) hd
  | decodingRules => exact hsheet (by decide) hd
  | instanceChecks => exact hsheet (by decide) hd
  | packageRoot =>
    obtain rfl := List.mem_singleton.mp hd
    refine ⟨_, _, rfl, ?_, fits_of_mem_code⟩
    rw [Naming.snake_eq_self hname]
    exact hquote hname

end Backend

namespace Schema

variable {s : Schema} {o : Ontology}

/-- A schema without problems has a name. -/
theorem isName_name_of_problems_eq_nil (hs : s.problems = []) : Grammar.isName s.name = true := by
  simp only [problems, Validation.checkHead, List.append_eq_nil_iff] at hs
  obtain ⟨⟨⟨hname, -⟩, -⟩, -⟩ := hs
  split at hname
  next => cases hname
  next => exact Validation.require_eq_nil.mp hname

/-- In the files written for an ontology built from a valid schema all docstrings behind the first one of a file close
where they were closed, and the first one does exactly if there are no three quotes in a row in the version. -/
theorem docstrings_closed_iff (hs : s.problems = []) (h : s.build = .ok o) (b : Backend) :
    b.Writes o (b.generator.isRequired o = false) ((b.documents o).map (Document.emission o)) ∧
      ∀ d ∈ b.documents o, CodeLine.Closed d.lines.tail ∧
        (CodeLine.Closed d.lines ↔ ¬ Docstring.delimiter <:+: s.version.toList) := by
  have ho := legible_of_build hs h
  obtain ⟨hname, hversion⟩ := name_and_version_of_build h
  have hisName : Grammar.isName o.name = true := hname ▸ isName_name_of_problems_eq_nil hs
  have hquote : '"' ∉ o.name.toList := (Grammar.plain_of_isName hisName).notMem (by decide)
  have hclasses (c : Class) (hc : c ∈ o.classes) : '"' ∉ c.qualifiedName.toList := by
    have hentity : o.entityName (.ofClass c.id) = c.qualifiedName :=
      Ontology.Arena.className_eq (ho.class?_of_mem hc)
    exact hentity ▸ (ho.entities (.ofClass c.id)).notMem (by decide)
  refine ⟨Backend.writes_documents ho.toWired b, fun d hd => ?_⟩
  obtain ⟨title, rest, hlines, htitle, hrest⟩ :=
    Backend.exists_docLine_of_mem_documents ho.toWired (isName_of_build hs h) hisName hclasses hd
  rw [hlines, List.tail_cons, CodeLine.closed_iff, CodeLine.closed_iff, List.forall_mem_cons, ← hversion,
    ← CodeModule.fits_docLine_iff htitle hquote]
  exact ⟨hrest, and_iff_left hrest⟩

/-- A pier with a doc that has three quotes in a row, in a schema with a given version. -/
def quay (version : String) : Schema :=
  ⟨"quay", version, "", [⟨"harbor", some "Ships.", some (.ofList [("pier", .object [("base", .null),
    ("is_abstract", .boolean false), ("doc", .text "Long \"\"\"pier\"\"\"")])]), none⟩]⟩

/-- With a plain version all docstrings of the schema close where they were closed, with three quotes in the version
that of the root module does not. -/
theorem quay_docstrings_closed :
    (∃ o, (quay "1").build = .ok o ∧ ∀ b : Backend, ∀ d ∈ b.documents o, CodeLine.Closed d.lines) ∧
      ∃ o, (quay "1\"\"\"").build = .ok o ∧ ∃ d ∈ Backend.packageRoot.documents o, ¬ CodeLine.Closed d.lines := by
  constructor
  · have hs : (quay "1").problems = [] := by decide +kernel
    have hbuild : (quay "1").build.map (fun _ => ()) = .ok () := by cbv
    obtain ⟨o, ho, -⟩ := Declaration.map_eq_ok.mp hbuild
    refine ⟨o, ho, fun b d hd => ((docstrings_closed_iff hs ho b).2 d hd).2.mpr ?_⟩
    decide
  · have hs : (quay "1\"\"\"").problems = [] := by decide +kernel
    have hbuild : (quay "1\"\"\"").build.map (fun _ => ()) = .ok () := by cbv
    obtain ⟨o, ho, -⟩ := Declaration.map_eq_ok.mp hbuild
    have hroot : _ ∈ Backend.packageRoot.documents o := List.mem_singleton_self _
    refine ⟨o, ho, _, hroot, fun hclosed => ?_⟩
    exact ((docstrings_closed_iff hs ho .packageRoot).2 _ hroot).2.mp hclosed (by decide)

end Schema

end OntologyCompiler
