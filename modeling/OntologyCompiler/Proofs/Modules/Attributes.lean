import OntologyCompiler.Proofs.Fingerprint.Reading
import OntologyCompiler.Proofs.Inheritance.Overrides
import OntologyCompiler.Proofs.Literals.Visible
import OntologyCompiler.Proofs.Modules.ClassNames

/-!
# Attributes of generated classes

The constructor of a class sets one attribute for each property that is not hidden, on a line of its own: whatever else
stands on the line has no line feed. The attribute is named like the property, but a reserved word gets an underscore
behind it. So a property whose name is a reserved word shares its attribute with the property that has the underscore in
its name, and no other two properties share one.
-/

namespace OntologyCompiler

namespace Naming

variable {name : String} {cs : List Char} {c : Char}

/-- A line feed does not come from another character in upper case. -/
theorem eq_lineFeed_of_toUpper (h : c.toUpper = '\n') : c = '\n' := by
  have halpha : c.isAlpha = false := by rw [← Char.isUpper_toUpper_eq_isAlpha, h]; rfl
  have hlower : c.isLower = false := (Bool.or_eq_false_iff.mp halpha).2
  rwa [Char.toUpper_eq_of_not_isLower (by simp [hlower])] at h

/-- A line feed does not come from another character in lower case. -/
theorem eq_lineFeed_of_toLower (h : c.toLower = '\n') : c = '\n' := by
  have halpha : c.isAlpha = false := by rw [← Char.isLower_toLower_eq_isAlpha, h]; rfl
  have hupper : c.isUpper = false := (Bool.or_eq_false_iff.mp halpha).1
  rwa [Char.toLower_eq_of_not_isUpper (by simp [hupper])] at h

/-- Words are run together without line feeds. -/
theorem lineFeed_notMem_className (h : '\n' ∉ name.toList) : '\n' ∉ (className name).toList := by
  have hchars (capital : Bool) (cs : List Char) (hcs : '\n' ∉ cs) : '\n' ∉ pascalChars capital cs := by
    induction cs generalizing capital with
    | nil => exact List.not_mem_nil
    | cons c cs ih =>
      obtain ⟨hc, hcs⟩ := not_or.mp (mt List.mem_cons.mpr hcs)
      unfold pascalChars
      split
      · exact ih true hcs
      · refine List.not_mem_cons_of_ne_of_not_mem (fun heq => hc ?_) (ih false hcs)
        split at heq
        · exact (eq_lineFeed_of_toUpper heq.symm).symm
        · exact heq
  rw [className, pascal, String.toList_ofList]
  exact hchars true name.toList h

/-- Words are put in lower case without line feeds. -/
theorem lineFeed_notMem_snake (h : '\n' ∉ name.toList) : '\n' ∉ (snake name).toList := by
  have hunderscore : '\n' ≠ '_' := by decide
  have hchars (word : Bool) (cs : List Char) (hcs : '\n' ∉ cs) : '\n' ∉ snakeChars word cs := by
    induction cs generalizing word with
    | nil => exact List.not_mem_nil
    | cons c cs ih =>
      obtain ⟨hc, hcs⟩ := not_or.mp (mt List.mem_cons.mpr hcs)
      have hlower : '\n' ≠ c.toLower := fun heq => hc (eq_lineFeed_of_toLower heq.symm).symm
      simp only [snakeChars]
      split
      · split <;> simp [hunderscore, hlower, ih false hcs]
      · split
        · simp [hunderscore, ih false hcs]
        · simp [hc, ih _ hcs]
  rw [snake, String.toList_ofList]
  exact hchars false name.toList h

/-- Attributes are named without line feeds. -/
theorem lineFeed_notMem_attributeName (h : '\n' ∉ name.toList) : '\n' ∉ (attributeName name).toList := by
  unfold attributeName
  dsimp only
  split
  · exact Text.notMem_append (lineFeed_notMem_snake h) (by decide)
  · exact lineFeed_notMem_snake h

/-- The first name is a reserved word, and the second one is that word with an underscore behind it. -/
def Escapes (a b : String) : Prop := isKeyword a = true ∧ b = a ++ "_"

/-- No reserved word is another one with an underscore behind it. -/
theorem isKeyword_append_underscore (name : String) : isKeyword (name ++ "_") = false := by
  have hends : ∀ k ∈ keywords, k.toList.getLast? ≠ some '_' := by decide +kernel
  rw [isKeyword, Bool.eq_false_iff]
  intro hword
  refine hends _ (List.contains_iff_mem.mp hword) ?_
  simp [String.toList_append]

/-- A name in lower case is the attribute itself, with an underscore behind it if it is a reserved word. -/
theorem attributeName_eq {name : String} (h : ∀ c ∈ name.toList, Grammar.isNameChar c = true) :
    attributeName name = if isKeyword name then name ++ "_" else name := by
  rw [attributeName, snake, snakeChars_eq_self h, String.ofList_toList]

/-- The attribute of a name in lower case has the characters of names. -/
theorem isNameChar_of_mem_attributeName {name : String} (h : ∀ c ∈ name.toList, Grammar.isNameChar c = true) :
    ∀ c ∈ (attributeName name).toList, Grammar.isNameChar c = true := by
  rw [attributeName_eq h]
  split
  · rw [String.toList_append]
    exact List.forall_mem_append.mpr ⟨h, List.forall_mem_singleton.mpr (by decide)⟩
  · exact h

/-- Two names in lower case have one attribute exactly if they are the same or the attribute of one, a reserved word, is
the other. -/
theorem attributeName_eq_iff {a b : String} (ha : ∀ c ∈ a.toList, Grammar.isNameChar c = true)
    (hb : ∀ c ∈ b.toList, Grammar.isNameChar c = true) :
    attributeName a = attributeName b ↔ a = b ∨ Escapes a b ∨ Escapes b a := by
  have hcancel {a b : String} : a ++ "_" = b ++ "_" ↔ a = b := by
    constructor
    · intro h
      have hchars := congrArg String.toList h
      rw [String.toList_append, String.toList_append] at hchars
      exact String.toList_injective (List.append_cancel_right hchars)
    · exact congrArg (· ++ "_")
  have hnever {a b : String} (hb : isKeyword b = true) : b ≠ a ++ "_" := by
    rintro rfl
    rw [isKeyword_append_underscore] at hb
    cases hb
  have hdiffer {a b : String} (ha : isKeyword a = true) (hb : isKeyword b = false) : a ≠ b := by
    rintro rfl
    rw [ha] at hb
    cases hb
  rw [attributeName_eq ha, attributeName_eq hb, Escapes, Escapes]
  cases hka : isKeyword a with
  | true =>
    cases hkb : isKeyword b with
    | true => simp [hcancel, hnever hka, hnever hkb]
    | false => simp [hdiffer hka hkb, eq_comm]
  | false =>
    cases hkb : isKeyword b with
    | true => simp [(hdiffer hkb hka).symm]
    | false => simp

end Naming

namespace CodeLine

variable {text : String} {start : List Char}

/-- A text without line feeds is a line of code if it starts with blanks and a character that is no quote. -/
theorem proper_code (hfeed : '\n' ∉ text.toList) (h : start <+: text.toList)
    (hstart : (start.dropWhile (· = ' ')).head?.any (· ≠ '"') = true) : (code text).Proper := by
  refine ⟨hfeed, ?_⟩
  obtain ⟨rest, hrest⟩ := h
  cases hhead : start.dropWhile (· = ' ') with
  | nil =>
    rw [hhead] at hstart
    cases hstart
  | cons c cs =>
    have hc : c ≠ '"' := by simpa [hhead] using hstart
    have hdrop : text.toList.dropWhile (· = ' ') = c :: (cs ++ rest) := by
      rw [← hrest, List.dropWhile_append, hhead]
      rfl
    simp [hdrop, Docstring.delimiter, List.cons_prefix_cons, Ne.symm hc]

/-- A name behind a start of a line of code is on that line. -/
theorem proper_code_append {start name rest : String}
    (hstart : (start.toList.dropWhile (· = ' ')).head?.any (· ≠ '"') = true) (hopen : '\n' ∉ start.toList)
    (hname : '\n' ∉ name.toList) (hclose : '\n' ∉ rest.toList) : (code (start ++ name ++ rest)).Proper := by
  refine proper_code (Text.notMem_append (Text.notMem_append hopen hname) hclose) ?_ hstart
  rw [String.toList_append, String.toList_append, List.append_assoc]
  exact List.prefix_append _ _

/-- A docstring is proper behind blanks if its text fits. -/
theorem proper_docstring {indent : String} (n : Nat) (h : indent.toList = List.replicate n ' ')
    (hfits : (docstring indent text).Fits) : (docstring indent text).Proper :=
  ⟨fun _ hc => List.eq_of_mem_replicate (h ▸ hc), hfits⟩

/-- The attribute that a line of a constructor sets. -/
def assigned? : CodeLine → Option String
  | .code text =>
    (Text.dropStart? "        self.".toList text.toList).bind fun cs => (Text.cut? ' ' cs).map fun parts =>
      String.ofList parts.1
  | .docstring _ _ => none

end CodeLine

namespace DataModel

variable {o : Ontology} {c : Class} {p : Property} {package : String}

/-- The line of an attribute starts with its name behind the instance. -/
theorem toList_attributeLine (o : Ontology) (c : Class) (package : String) (p : Property) :
    (attributeLine o c package p).toList = "        self.".toList ++ ((Naming.attributeName p.name).toList ++ ' ' ::
      ("= " ++ initialValue o c p ++ "  # " ++ pythonType o p.type package ++ " (" ++ p.cardinality.render ++
        ")").toList) := by
  have hequals : " = ".toList = ' ' :: "= ".toList := rfl
  unfold attributeLine
  simp only [String.toList_append, List.append_assoc]
  rw [hequals, List.cons_append]

/-- A name of another package is on one line. -/
theorem lineFeed_notMem_qualify {owner name : String} (howner : '\n' ∉ owner.toList) (hname : '\n' ∉ name.toList) :
    '\n' ∉ (qualify owner package name).toList := by
  unfold qualify
  split
  · exact hname
  · have hmodule : '\n' ∉ (moduleOf owner).toList :=
      Text.notMem_append (Naming.lineFeed_notMem_snake howner) (by decide)
    exact Text.notMem_append (Text.notMem_append hmodule (by decide)) hname

/-- The type of an attribute is on one line. -/
theorem lineFeed_notMem_pythonType (ho : o.Legible) (hp : p ∈ o.properties) (package : String) :
    '\n' ∉ (pythonType o p.type package).toList := by
  have htype : '\n' ∉ p.type.name.toList := (ho.type_names p hp _ List.mem_cons_self).notMem (by decide)
  unfold pythonType
  split
  next kind _ => cases kind <;> decide
  next name hunresolved =>
    obtain ⟨rfl, -⟩ := ((ho.bound p hp).unresolved name).mp hunresolved
    exact Text.notMem_append (Text.notMem_append (by decide) htype) (by decide)
  next entity _ =>
    refine lineFeed_notMem_qualify ?_ (Naming.lineFeed_notMem_className ?_)
    · cases o.entityPackage? entity with
      | none => exact (by decide : '\n' ∉ "".toList)
      | some id => exact (ho.packages id).notMem (by decide)
    · cases hparts : p.type.qualifiedParts with
      | none => exact htype
      | some parts =>
        rw [eq_append_of_splitQualified hparts] at htype
        simp [String.toList_append] at htype
        exact htype.2

/-- The name of a class is on one line. -/
theorem lineFeed_notMem_name (ho : o.Legible) (hc : c ∈ o.classes) : '\n' ∉ c.name.toList := by
  have hqualified : '\n' ∉ c.qualifiedName.toList := (ho.plain_qualifiedName hc).notMem (by decide)
  rw [ho.class_name (ho.class?_of_mem hc)] at hqualified
  simp [String.toList_append] at hqualified
  exact hqualified.2

/-- The base of a class is on one line. -/
theorem lineFeed_notMem_baseName (ho : o.Legible) (c : Class) (package : String) :
    '\n' ∉ (baseName o c package).toList := by
  unfold baseName
  split
  next base hbase =>
    obtain ⟨id, -, hfound⟩ := Option.bind_eq_some_iff.mp hbase
    have hmem : base ∈ o.classes := Ontology.Arena.mem_of_class? hfound
    exact lineFeed_notMem_qualify ((ho.packages _).notMem (by decide))
      (Naming.lineFeed_notMem_className (lineFeed_notMem_name ho hmem))
  next => split <;> decide

/-- An attribute is set on one line. -/
theorem lineFeed_notMem_attributeLine (ho : o.Legible) (hp : p ∈ o.properties) :
    '\n' ∉ (attributeLine o c package p).toList := by
  have hname : '\n' ∉ (Naming.attributeName p.name).toList :=
    Naming.lineFeed_notMem_attributeName ((ho.property_names p hp).notMem (by decide))
  have hvalue : '\n' ∉ (initialValue o c p).toList := by
    unfold initialValue
    split
    · exact (Literal.visible_render _).lineFeed_notMem
    · split <;> decide
  have hencodings : ∀ encoding ∈ Cardinality.encodings, '\n' ∉ encoding.toList := by decide
  have hcardinality := hencodings _ (ho.render_mem_encodings hp)
  have hstart := Text.notMem_append (by decide : '\n' ∉ "        self.".toList) hname
  have hassigned := Text.notMem_append (Text.notMem_append hstart (by decide : '\n' ∉ " = ".toList)) hvalue
  have htyped := Text.notMem_append (Text.notMem_append hassigned (by decide : '\n' ∉ "  # ".toList))
    (lineFeed_notMem_pythonType ho hp package)
  exact Text.notMem_append (Text.notMem_append (Text.notMem_append htyped (by decide)) hcardinality) (by decide)

/-- The lines of a class are lines of code and docstrings. -/
theorem proper_classLines (ho : o.Legible) (hc : c ∈ o.classes) : ∀ line ∈ classLines o c package, line.Proper := by
  have hclass :
      (CodeLine.code ("class " ++ Naming.className c.name ++ "(" ++ baseName o c package ++ "):")).Proper := by
    have hname := Naming.lineFeed_notMem_className (lineFeed_notMem_name ho hc)
    have hopen := Text.notMem_append (Text.notMem_append (by decide : '\n' ∉ "class ".toList) hname)
      (by decide : '\n' ∉ "(".toList)
    have hline := Text.notMem_append (Text.notMem_append hopen (lineFeed_notMem_baseName ho c package))
      (by decide : '\n' ∉ "):".toList)
    refine @CodeLine.proper_code _ "class ".toList hline ?_ (by decide)
    simp only [String.toList_append, List.append_assoc]
    exact List.prefix_append _ _
  have hattribute (p : Property) (hp : p ∈ o.visibleProperties c.id) :
      (CodeLine.code (attributeLine o c package p)).Proper := by
    have hmem := Ontology.mem_properties_of_mem_allProperties (List.mem_filter.mp hp).1
    refine @CodeLine.proper_code _ "        self.".toList (lineFeed_notMem_attributeLine ho hmem) ?_ (by decide)
    rw [toList_attributeLine]
    exact List.prefix_append _ _
  have hdoc : (Docstring.line c.doc "    ").Proper :=
    CodeLine.proper_docstring 4 rfl (Docstring.fits_line c.doc (by decide))
  have hconstructor : (CodeLine.docstring "        " "Instance constructor.").Proper :=
    CodeLine.proper_docstring 8 rfl (Docstring.fits_of_notMem (by decide))
  refine List.forall_mem_append.mpr ⟨?_, List.forall_mem_map.mpr ?_⟩
  · simp only [List.forall_mem_cons]
    exact ⟨hclass, hdoc, ⟨by decide, by decide⟩, ⟨by decide, by decide⟩, hconstructor, nofun⟩
  · split
    · exact List.forall_mem_singleton.mpr ⟨by decide, by decide⟩
    · exact List.forall_mem_map.mpr hattribute

/-- The code of a class is its lines. -/
theorem spells_classLines (ho : o.Legible) (hc : c ∈ o.classes) (package : String) :
    CodeLine.Spells (classLines o c package) (Backend.dataModel.text o package (.ofClass c)) where
  filled := List.cons_ne_nil _ _
  proper := proper_classLines ho hc
  text_eq := (Backend.spell_itemLines package (.ofClass c)).symm

/-- The line of an attribute sets it. -/
theorem assigned?_attributeLine (h : ∀ c ∈ p.name.toList, Grammar.isNameChar c = true) :
    CodeLine.assigned? (.code (attributeLine o c package p)) = some (Naming.attributeName p.name) := by
  have hblank : ' ' ∉ (Naming.attributeName p.name).toList := fun hmem =>
    absurd (Naming.isNameChar_of_mem_attributeName h _ hmem) (by decide)
  rw [CodeLine.assigned?, toList_attributeLine, Text.dropStart?_append, Option.bind_some, Text.cut?_append hblank,
    Option.map_some, String.ofList_toList]

/-- The lines of a class set one attribute for each property that is not hidden. -/
theorem filterMap_assigned?_classLines
    (h : ∀ p ∈ o.visibleProperties c.id, ∀ c ∈ p.name.toList, Grammar.isNameChar c = true) :
    (classLines o c package).filterMap CodeLine.assigned? =
      (o.visibleProperties c.id).map fun p => Naming.attributeName p.name := by
  have hclass : CodeLine.assigned?
      (.code ("class " ++ Naming.className c.name ++ "(" ++ baseName o c package ++ "):")) = none := by
    simp only [CodeLine.assigned?, String.toList_append, List.append_assoc]
    rfl
  have hhead : [ .code ("class " ++ Naming.className c.name ++ "(" ++ baseName o c package ++ "):"),
      Docstring.line c.doc "    ", .code "", .code "    def __init__(self):",
      .docstring "        " "Instance constructor." ].filterMap CodeLine.assigned? = [] := by
    rw [List.filterMap_cons_none hclass]
    rfl
  have hattributes :
      (((o.visibleProperties c.id).map (attributeLine o c package)).map .code).filterMap CodeLine.assigned? =
        (o.visibleProperties c.id).map fun p => Naming.attributeName p.name := by
    rw [List.filterMap_map, List.filterMap_map]
    refine (List.filterMap_congr fun p hp => ?_).trans (congrFun List.filterMap_eq_map' _)
    rw [Function.comp_apply, Function.comp_apply]
    exact assigned?_attributeLine (h p hp)
  unfold classLines
  dsimp only
  rw [List.filterMap_append, hhead, List.nil_append]
  split
  next hempty =>
    rw [← hattributes, List.isEmpty_iff.mp hempty]
    rfl
  next => exact hattributes

end DataModel

namespace Schema

variable {s : Schema} {o : Ontology}

/-- The names of properties have the characters of names. -/
theorem isNameChar_of_mem_properties (hs : s.problems = []) (h : s.build = .ok o) {p : Property}
    (hp : p ∈ o.properties) : ∀ c ∈ p.name.toList, Grammar.isNameChar c = true := by
  obtain ⟨d, hname, -, -, -, hproper, -⟩ := exists_declaration_of_build hs h hp
  exact hname ▸ Grammar.isNameChar_of_isPropertyName hproper.1

/-- The properties of a class that are not hidden have different names. -/
theorem nodup_visibleProperties (h : s.build = .ok o) (id : ClassId) :
    ((o.visibleProperties id).map Property.name).Nodup := by
  have hascending := (inherits_of_build h id).properties_ascending.sublist
    (show (o.visibleProperties id).Sublist (o.allProperties id) from List.filter_sublist)
  refine List.pairwise_map.mpr (hascending.imp fun {p q} hlt heq => ?_)
  rw [heq, Std.ReflOrd.compare_self] at hlt
  cases hlt

/-- The classes of a valid schema are written as lines of code and docstrings. Each sets one attribute for each of its
properties that are not hidden, and the attributes are different exactly if none of the properties is named like a
reserved word and another one like that word with an underscore behind it. -/
theorem attributes_nodup_iff (hs : s.problems = []) (h : s.build = .ok o) :
    Backend.dataModel.Publishes o (Backend.dataModel.sheets o) ∧
      ∀ g ∈ Backend.dataModel.sheets o, ∀ c, .ofClass c ∈ g.items →
        ∃ lines, CodeLine.Spells lines (Backend.dataModel.text o g.package (.ofClass c)) ∧
          lines.filterMap CodeLine.assigned? = (o.visibleProperties c.id).map (fun p => Naming.attributeName p.name) ∧
          ((lines.filterMap CodeLine.assigned?).Nodup ↔
            ∀ p ∈ o.visibleProperties c.id, ∀ q ∈ o.visibleProperties c.id, ¬ Naming.Escapes p.name q.name) := by
  have ho := legible_of_build hs h
  have hsheets : Backend.dataModel.Publishes o (Backend.dataModel.sheets o) :=
    Backend.publishes_sheets ho.toWired (by decide)
  refine ⟨hsheets, fun g hg c hc => ?_⟩
  have hmem : c ∈ o.classes := Ontology.ofClass_mem_items.mp ((hsheets.items g hg _).mp hc).1
  have hchars (p : Property) (hp : p ∈ o.visibleProperties c.id) : ∀ c ∈ p.name.toList, Grammar.isNameChar c = true :=
    isNameChar_of_mem_properties hs h (Ontology.mem_properties_of_mem_allProperties (List.mem_filter.mp hp).1)
  have hassigned := @DataModel.filterMap_assigned?_classLines o c g.package hchars
  refine ⟨DataModel.classLines o c g.package, DataModel.spells_classLines ho hmem g.package, hassigned, ?_⟩
  have hnames := nodup_visibleProperties h c.id
  rw [hassigned, List.nodup_map_iff_inj_on (.of_map _ hnames)]
  constructor
  · intro hinjective p hp q hq hescapes
    have hsame : p = q := hinjective p hp q hq
      ((Naming.attributeName_eq_iff (hchars p hp) (hchars q hq)).mpr (.inr (.inl hescapes)))
    have hword : Naming.isKeyword (p.name ++ "_") = true := by
      rw [← hescapes.2, ← hsame]
      exact hescapes.1
    rw [Naming.isKeyword_append_underscore] at hword
    cases hword
  · intro hfree p hp q hq heq
    rcases (Naming.attributeName_eq_iff (hchars p hp) (hchars q hq)).mp heq with hname | hescapes | hescapes
    · exact List.inj_on_of_nodup_map hnames hp hq hname
    · exact absurd hescapes (hfree p hp q hq)
    · exact absurd hescapes (hfree q hq p hp)

/-- A class with properties of the given names. -/
def reed (names : List String) : Schema :=
  ⟨"reed", "1", "", [⟨"marsh", some "Wet.", some (.ofList [("rush", .object [("base", .null),
    ("is_abstract", .boolean false), ("properties", .list (names.map fun name =>
      .list [.text name, .text "str", .text "0.1"]))])]), none⟩]⟩

/-- A place and a time have different attributes, a reserved word and the word with an underscore have one. -/
theorem reed_attributes :
    (∃ o, (reed ["from", "to"]).build = .ok o ∧ ∀ c ∈ o.classes, ∃ g ∈ Backend.dataModel.sheets o, ∃ lines,
      CodeLine.Spells lines (Backend.dataModel.text o g.package (.ofClass c)) ∧
        lines.filterMap CodeLine.assigned? = ["from_", "to"]) ∧
    ∃ o, (reed ["from", "from_"]).build = .ok o ∧ ∀ c ∈ o.classes, ∃ g ∈ Backend.dataModel.sheets o, ∃ lines,
      CodeLine.Spells lines (Backend.dataModel.text o g.package (.ofClass c)) ∧
        lines.filterMap CodeLine.assigned? = ["from_", "from_"] := by
  have hread (names visible : List String) (hs : (reed names).problems = [])
      (hbuild : (reed names).build.map (fun o => o.classes.map fun c =>
        (o.visibleProperties c.id).map Property.name) = .ok [visible]) :
      ∃ o, (reed names).build = .ok o ∧ ∀ c ∈ o.classes, ∃ g ∈ Backend.dataModel.sheets o, ∃ lines,
        CodeLine.Spells lines (Backend.dataModel.text o g.package (.ofClass c)) ∧
          lines.filterMap CodeLine.assigned? = visible.map Naming.attributeName := by
    obtain ⟨o, ho, hvisible⟩ := Declaration.map_eq_ok.mp hbuild
    obtain ⟨hsheets, hattributes⟩ := attributes_nodup_iff hs ho
    refine ⟨o, ho, fun c hc => ?_⟩
    obtain ⟨g, hg, hmem⟩ := hsheets.complete _ (Ontology.ofClass_mem_items.mpr hc) rfl
    obtain ⟨lines, hspells, hassigned, -⟩ := hattributes g hg c hmem
    have hlisted : (o.visibleProperties c.id).map Property.name = visible := by
      have hmap := List.mem_map_of_mem (f := fun c : Class => (o.visibleProperties c.id).map Property.name) hc
      rw [hvisible] at hmap
      exact List.mem_singleton.mp hmap
    refine ⟨g, hg, lines, hspells, hassigned.trans ?_⟩
    rw [← hlisted, List.map_map]
    rfl
  exact ⟨hread ["from", "to"] ["from", "to"] (by decide +kernel) (by cbv),
    hread ["from", "from_"] ["from", "from_"] (by decide +kernel) (by cbv)⟩

end Schema

end OntologyCompiler
