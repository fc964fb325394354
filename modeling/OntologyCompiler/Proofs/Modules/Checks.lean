import OntologyCompiler.Proofs.Modules.Attributes

/-!
# Attributes that checks read

A function that checks an instance reads the attributes of its properties by their names. The constructor sets them
within a class, and there a name that starts with two underscores and does not end with two is private: it is stored
with the name of the class in front. So a check finds what the constructor has stored exactly if the name it reads is
not private.
-/

namespace OntologyCompiler

namespace Naming

/-- Whether a name is private within a class. -/
def isPrivate (name : String) : Bool := ['_', '_'].isPrefixOf name.toList && !(['_', '_'].isSuffixOf name.toList)

/-- The name under which an attribute is stored that is set within a class. -/
def mangled (owner name : String) : String :=
  let bare := owner.toList.dropWhile (· = '_')
  if isPrivate name && !bare.isEmpty then "_" ++ (String.ofList bare ++ name) else name

/-- A character of words of code. -/
def isWordChar (c : Char) : Bool := c.isAlphanum || c == '_'

variable {owner name a : String}

/-- A name that is not private is stored as it is. -/
theorem mangled_of_not_isPrivate (h : isPrivate name = false) : mangled owner name = name := by
  rw [mangled, h, Bool.false_and, if_neg Bool.false_ne_true]

/-- Nothing is stored under a private name, as a name of a class comes between the underscores. -/
theorem mangled_ne_of_isPrivate (howner : owner.toList.dropWhile (· = '_') ≠ []) (ha : isPrivate a = true)
    (name : String) : mangled owner name ≠ a := by
  unfold mangled
  dsimp only
  split
  next =>
    rintro rfl
    cases hbare : owner.toList.dropWhile (· = '_') with
    | nil => exact howner hbare
    | cons c cs =>
      have hc : c ≠ '_' := by
        have hhead := List.head_dropWhile_not (· = '_') howner
        simpa [hbare] using hhead
      have hstart := (Bool.and_eq_true_iff.mp ha).1
      simp [hbare, String.toList_append, Ne.symm hc] at hstart
  next hnot =>
    rintro rfl
    simp [ha, howner] at hnot

/-- The name of a class has more than underscores. -/
theorem dropWhile_className_ne_nil (h : Grammar.isName a = true) : (className a).toList.dropWhile (· = '_') ≠ [] := by
  intro hnil
  obtain ⟨c, cs, hchars, hlower⟩ := Grammar.exists_cons_of_isName h
  have hne : c ≠ '_' := by
    rintro rfl
    exact absurd hlower (by decide)
  have hseparator := Grammar.isSeparator_eq_false (Grammar.isNameChar_of_isLowerLetter hlower)
  have hmem : c.toUpper ∈ (className a).toList := by
    rw [className, pascal, String.toList_ofList, hchars, pascalChars_cons hne hseparator]
    exact List.mem_cons_self
  have hunderscore : c.toUpper = '_' := by simpa using List.dropWhile_eq_nil_iff.mp hnil _ hmem
  have halphanum := isAlphanum_of_mem_className h _ hmem
  rw [hunderscore] at halphanum
  exact absurd halphanum (by decide)

/-- A reserved word with an underscore behind it is not private, so that an attribute is private if its name is. -/
theorem isPrivate_attributeName (h : ∀ c ∈ name.toList, Grammar.isNameChar c = true) :
    isPrivate (attributeName name) = isPrivate name := by
  have hwords : ∀ k ∈ keywords, isPrivate (k ++ "_") = isPrivate k := by decide +kernel
  rw [attributeName_eq h]
  split
  next hword => exact hwords name (List.contains_iff_mem.mp hword)
  next => rfl

/-- The characters of names are characters of words. -/
theorem isWordChar_of_isNameChar {c : Char} (h : Grammar.isNameChar c = true) : isWordChar c = true := by
  rcases isNameChar_cases h with rfl | ⟨-, -, -, ⟨hlower, -⟩ | ⟨hdigit, -⟩⟩
  · decide
  · simp [isWordChar, Char.isAlphanum, Char.isAlpha, hlower]
  · simp [isWordChar, Char.isAlphanum, hdigit]

end Naming

namespace CodeLine

/-- The words that follow a start outside of quotes. A start counts if no word and no dot ends in front of it. -/
def wordsAfter (start : List Char) (quoted within : Bool) : List Char → List String
  | [] => []
  | c :: cs =>
    (if quoted || within then []
      else (Text.dropStart? start (c :: cs)).toList.map fun rest => String.ofList (rest.takeWhile Naming.isWordChar)) ++
        wordsAfter start (quoted != (c == '"')) (Naming.isWordChar c || c == '.') cs

/-- The attributes of the checked instance that a line reads. -/
def reads : CodeLine → List String
  | .code text => wordsAfter "instance.".toList false false text.toList
  | .docstring _ _ => []

/-- The names under which the lines of a class store what they set. -/
def stored (owner : String) (lines : List CodeLine) : List String :=
  (lines.filterMap assigned?).map (Naming.mangled owner)

variable {start word before after rest : List Char} {text name : String}

/-- Within a word nothing is read. -/
theorem wordsAfter_word (h : ∀ c ∈ word, Naming.isWordChar c = true) :
    wordsAfter start false true (word ++ rest) = wordsAfter start false true rest := by
  induction word with
  | nil => rfl
  | cons c word ih =>
    obtain ⟨hc, hword⟩ := List.forall_mem_cons.mp h
    have hquote : (c == '"') = false := by
      rw [beq_eq_false_iff_ne]
      rintro rfl
      cases hc
    rw [List.cons_append, wordsAfter, hquote, hc]
    exact ih hword

/-- Between quotes nothing is read. -/
theorem wordsAfter_quoted (h : '"' ∉ word) (within : Bool) :
    wordsAfter start true within (word ++ '"' :: rest) = wordsAfter start false false rest := by
  induction word generalizing within with
  | nil => rfl
  | cons c word ih =>
    obtain ⟨hc, hword⟩ := not_or.mp (mt List.mem_cons.mpr h)
    have hquote : (c == '"') = false := beq_eq_false_iff_ne.mpr (Ne.symm hc)
    rw [List.cons_append, wordsAfter, hquote]
    exact ih hword _

/-- A line reads an attribute of the instance if there is nothing to be read in front of it and behind it. -/
theorem reads_attribute (htext : text.toList = before ++ ("instance.".toList ++ (name.toList ++ after)))
    (hbefore : ∀ rest, wordsAfter "instance.".toList false false (before ++ rest) =
      wordsAfter "instance.".toList false false rest)
    (hname : ∀ c ∈ name.toList, Naming.isWordChar c = true) (hends : after.head?.any Naming.isWordChar = false)
    (hafter : wordsAfter "instance.".toList false true after = []) : (code text).reads = [name] := by
  have htake : (name.toList ++ after).takeWhile Naming.isWordChar = name.toList := by
    rw [List.takeWhile_append_of_pos hname]
    cases after with
    | nil => simp
    | cons c cs =>
      have hc : Naming.isWordChar c = false := hends
      simp [hc]
  have hstart : wordsAfter "instance.".toList false false ("instance.".toList ++ (name.toList ++ after)) =
      String.ofList ((name.toList ++ after).takeWhile Naming.isWordChar) ::
        wordsAfter "instance.".toList false true (name.toList ++ after) := rfl
  rw [reads, htext, hbefore, hstart, htake, wordsAfter_word hname, hafter, String.ofList_toList]

end CodeLine

namespace InstanceChecks

variable {o : Ontology} {c : Class} {p : Property} {before after text : String}

/-- The line that records an error reads nothing. -/
theorem reads_errorLine (h : '"' ∉ text.toList) : (CodeLine.code (errorLine text)).reads = [] := by
  have hchars : (errorLine text).toList = "        errors.append(\"".toList ++ (text.toList ++ '"' :: [')']) := by
    unfold errorLine
    rw [String.toList_append, String.toList_append, List.append_assoc]
    rfl
  have hopen : CodeLine.wordsAfter "instance.".toList false false (errorLine text).toList =
      CodeLine.wordsAfter "instance.".toList true false (text.toList ++ '"' :: [')']) := by
    rw [hchars]
    rfl
  rw [CodeLine.reads, hopen, CodeLine.wordsAfter_quoted h]
  rfl

/-- A line with the attribute of a property reads it. -/
theorem reads_attributeOf (hname : ∀ c ∈ p.name.toList, Grammar.isNameChar c = true)
    (hbefore : ∀ rest, CodeLine.wordsAfter "instance.".toList false false (before.toList ++ rest) =
      CodeLine.wordsAfter "instance.".toList false false rest)
    (hends : after.toList.head?.any Naming.isWordChar = false)
    (hafter : CodeLine.wordsAfter "instance.".toList false true after.toList = []) :
    (CodeLine.code (before ++ attributeOf p ++ after)).reads = [Naming.attributeName p.name] := by
  have hwords : ∀ c ∈ (Naming.attributeName p.name).toList, Naming.isWordChar c = true := fun c hc =>
    Naming.isWordChar_of_isNameChar (Naming.isNameChar_of_mem_attributeName hname c hc)
  refine CodeLine.reads_attribute ?_ hbefore hwords hends hafter
  simp only [attributeOf, String.toList_append, List.append_assoc]

/-- The lines that check a property read its attribute if there is anything to check. -/
theorem mem_reads_propertyLines {a : String} (hname : ∀ c ∈ p.name.toList, Grammar.isNameChar c = true)
    (hclass : '"' ∉ c.qualifiedName.toList) : a ∈ (propertyLines c p).flatMap (fun line => (CodeLine.code line).reads) ↔
      (p.cardinality.isIterative = true ∨ p.cardinality.isRequired = true) ∧ a = Naming.attributeName p.name := by
  have hlist : (CodeLine.code ("    if not isinstance(" ++ attributeOf p ++ ", list):")).reads =
      [Naming.attributeName p.name] := reads_attributeOf hname (fun _ => rfl) rfl rfl
  have hfilled : (CodeLine.code ("    elif not " ++ attributeOf p ++ ":")).reads =
      [Naming.attributeName p.name] := reads_attributeOf hname (fun _ => rfl) rfl rfl
  have hnone : (CodeLine.code ("    if " ++ attributeOf p ++ " is None:")).reads =
      [Naming.attributeName p.name] := reads_attributeOf hname (fun _ => rfl) rfl rfl
  have herror (complaint : String) (h : '"' ∉ complaint.toList) :
      (CodeLine.code (errorLine (c.qualifiedName ++ "." ++ p.name ++ complaint))).reads = [] := by
    have hproperty : '"' ∉ p.name.toList := fun hmem => absurd (hname _ hmem) (by decide)
    exact reads_errorLine (Text.notMem_append (Text.notMem_append (Text.notMem_append hclass (by decide)) hproperty) h)
  unfold propertyLines
  dsimp only
  cases p.cardinality.isIterative <;> cases p.cardinality.isRequired <;>
    simp [hlist, hfilled, hnone, herror]

/-- The head of a check reads nothing. -/
theorem reads_definition {name : String} (h : ∀ c ∈ name.toList, Naming.isWordChar c = true) :
    (CodeLine.code ("def validate_" ++ name ++ "(instance):")).reads = [] := by
  have hopen (rest : List Char) : CodeLine.wordsAfter "instance.".toList false false ("def validate_".toList ++ rest) =
      CodeLine.wordsAfter "instance.".toList false true rest := rfl
  rw [CodeLine.reads, String.toList_append, String.toList_append, List.append_assoc, hopen, CodeLine.wordsAfter_word h]
  rfl

/-- The line that asks for the class of an instance reads nothing. -/
theorem reads_isinstance {name : String} (h : ∀ c ∈ name.toList, Naming.isWordChar c = true) :
    (CodeLine.code ("    if not isinstance(instance, typeset." ++ name ++ "):")).reads = [] := by
  have hopen (rest : List Char) : CodeLine.wordsAfter "instance.".toList false false
      ("    if not isinstance(instance, typeset.".toList ++ rest) =
        CodeLine.wordsAfter "instance.".toList false true rest := rfl
  rw [CodeLine.reads, String.toList_append, String.toList_append, List.append_assoc, hopen, CodeLine.wordsAfter_word h]
  rfl

/-- The line for what is no instance of a class reads nothing. -/
theorem reads_expected {name : String} (h : '"' ∉ name.toList) :
    (CodeLine.code ("        return [\"expected an instance of " ++ name ++ "\"]")).reads = [] := by
  have hopen (rest : List Char) : CodeLine.wordsAfter "instance.".toList false false
      ("        return [\"expected an instance of ".toList ++ rest) =
        CodeLine.wordsAfter "instance.".toList true false rest := rfl
  have hends : "\"]".toList = '"' :: [']'] := rfl
  rw [CodeLine.reads, String.toList_append, String.toList_append, List.append_assoc, hopen, hends,
    CodeLine.wordsAfter_quoted h]
  rfl

/-- The lines of a check read what those read that check properties. -/
theorem flatMap_reads_functionLines (hname : Grammar.isName c.name = true) (hclass : '"' ∉ c.qualifiedName.toList) :
    (functionLines o c).flatMap CodeLine.reads =
      ((o.visibleProperties c.id).flatMap (propertyLines c)).flatMap fun line => (CodeLine.code line).reads := by
  have hfunction := reads_definition fun x hx =>
    Naming.isWordChar_of_isNameChar (Naming.isNameChar_of_mem_attributeName (Grammar.isNameChar_of_mem hname) x hx)
  have hinstance := @reads_isinstance (Naming.className c.name) fun x hx => by
    rw [Naming.isWordChar, Naming.isAlphanum_of_mem_className hname x hx, Bool.true_or]
  have hexpected := reads_expected hclass
  have hdoc (indent text : String) : (CodeLine.docstring indent text).reads = [] := rfl
  have hfirst : (CodeLine.code "    errors = []").reads = [] := rfl
  have hlast : (CodeLine.code "    return errors").reads = [] := rfl
  simp only [functionLines, List.flatMap_append, List.flatMap_cons, List.flatMap_nil, List.map_append, List.map_cons,
    List.map_nil, hfunction, hdoc, hfirst, hinstance, hexpected, hlast, List.nil_append, List.append_nil,
    List.flatMap_map]

/-- The lines of a check read the attributes of the properties that are checked. -/
theorem mem_reads_functionLines {a : String}
    (hnames : ∀ p ∈ o.visibleProperties c.id, ∀ c ∈ p.name.toList, Grammar.isNameChar c = true)
    (hname : Grammar.isName c.name = true) (hclass : '"' ∉ c.qualifiedName.toList) :
    a ∈ (functionLines o c).flatMap CodeLine.reads ↔ ∃ p ∈ o.visibleProperties c.id,
      (p.cardinality.isIterative = true ∨ p.cardinality.isRequired = true) ∧ a = Naming.attributeName p.name := by
  rw [flatMap_reads_functionLines hname hclass, List.flatMap_assoc, List.mem_flatMap]
  exact exists_congr fun p => and_congr_right fun hp => mem_reads_propertyLines (hnames p hp) hclass

section Stored

variable (hnames : ∀ p ∈ o.visibleProperties c.id, ∀ x ∈ p.name.toList, Grammar.isNameChar x = true)
  (hname : Grammar.isName c.name = true) (hclass : '"' ∉ c.qualifiedName.toList)

include hnames hname hclass

/-- What a check reads is stored by the constructor exactly if it is not private. -/
theorem mem_stored_iff {a : String} (ha : a ∈ (functionLines o c).flatMap CodeLine.reads) (package : String) :
    a ∈ CodeLine.stored (Naming.className c.name) (DataModel.classLines o c package) ↔ Naming.isPrivate a = false := by
  rw [CodeLine.stored, DataModel.filterMap_assigned?_classLines hnames, List.mem_map]
  constructor
  · rintro ⟨b, -, heq⟩
    refine Bool.eq_false_iff.mpr fun hprivate => ?_
    exact Naming.mangled_ne_of_isPrivate (Naming.dropWhile_className_ne_nil hname) hprivate b heq
  · intro hpublic
    obtain ⟨p, hp, -, rfl⟩ := (mem_reads_functionLines hnames hname hclass).mp ha
    exact ⟨_, List.mem_map_of_mem hp, Naming.mangled_of_not_isPrivate hpublic⟩

/-- All that a check reads is stored by the constructor exactly if no checked property has a private name. -/
theorem forall_mem_stored_iff (package : String) : (∀ a ∈ (functionLines o c).flatMap CodeLine.reads,
      a ∈ CodeLine.stored (Naming.className c.name) (DataModel.classLines o c package)) ↔
    ∀ p ∈ o.visibleProperties c.id,
      p.cardinality.isIterative = true ∨ p.cardinality.isRequired = true → Naming.isPrivate p.name = false := by
  constructor
  · intro hall p hp hchecked
    have hread := (mem_reads_functionLines hnames hname hclass).mpr ⟨p, hp, hchecked, rfl⟩
    rw [← Naming.isPrivate_attributeName (hnames p hp)]
    exact (mem_stored_iff hnames hname hclass hread package).mp (hall _ hread)
  · intro hpublic a ha
    obtain ⟨p, hp, hchecked, rfl⟩ := (mem_reads_functionLines hnames hname hclass).mp ha
    refine (mem_stored_iff hnames hname hclass ha package).mpr ?_
    rw [Naming.isPrivate_attributeName (hnames p hp)]
    exact hpublic p hp hchecked

end Stored

/-- The lines that check a property are lines of code. -/
theorem proper_propertyLines (ho : o.Legible) (hc : c ∈ o.classes) (hp : p ∈ o.properties) :
    ∀ line ∈ propertyLines c p, (CodeLine.code line).Proper := by
  have hname : '\n' ∉ p.name.toList := (ho.property_names p hp).notMem (by decide)
  have htarget : '\n' ∉ (attributeOf p).toList :=
    Text.notMem_append (by decide) (Naming.lineFeed_notMem_attributeName hname)
  have hentity : '\n' ∉ (c.qualifiedName ++ "." ++ p.name).toList :=
    Text.notMem_append (Text.notMem_append ((ho.plain_qualifiedName hc).notMem (by decide)) (by decide)) hname
  have herror {complaint : String} (h : '\n' ∉ complaint.toList) :
      (CodeLine.code (errorLine (c.qualifiedName ++ "." ++ p.name ++ complaint))).Proper :=
    CodeLine.proper_code_append (by decide) (by decide) (Text.notMem_append hentity h) (by decide)
  have hlist : (CodeLine.code ("    if not isinstance(" ++ attributeOf p ++ ", list):")).Proper :=
    CodeLine.proper_code_append (by decide) (by decide) htarget (by decide)
  have hfilled : (CodeLine.code ("    elif not " ++ attributeOf p ++ ":")).Proper :=
    CodeLine.proper_code_append (by decide) (by decide) htarget (by decide)
  have hnone : (CodeLine.code ("    if " ++ attributeOf p ++ " is None:")).Proper :=
    CodeLine.proper_code_append (by decide) (by decide) htarget (by decide)
  unfold propertyLines
  dsimp only
  cases p.cardinality.isIterative <;> cases p.cardinality.isRequired <;>
    simp [hlist, hfilled, hnone, herror]

/-- The lines of a check are lines of code and docstrings. -/
theorem proper_functionLines (ho : o.Legible) (hc : c ∈ o.classes) : ∀ line ∈ functionLines o c, line.Proper := by
  have hplain := ho.plain_qualifiedName hc
  have hname := DataModel.lineFeed_notMem_name ho hc
  have hfunction : (CodeLine.code ("def validate_" ++ Naming.attributeName c.name ++ "(instance):")).Proper :=
    CodeLine.proper_code_append (by decide) (by decide) (Naming.lineFeed_notMem_attributeName hname) (by decide)
  have hinstance :
      (CodeLine.code ("    if not isinstance(instance, typeset." ++ Naming.className c.name ++ "):")).Proper :=
    CodeLine.proper_code_append (by decide) (by decide) (Naming.lineFeed_notMem_className hname) (by decide)
  have hexpected : (CodeLine.code ("        return [\"expected an instance of " ++ c.qualifiedName ++ "\"]")).Proper :=
    CodeLine.proper_code_append (by decide) (by decide) (hplain.notMem (by decide)) (by decide)
  have hdoc : (CodeLine.docstring "    " ("Validates an instance of " ++ c.qualifiedName ++ ".")).Proper :=
    CodeLine.proper_docstring 4 rfl (Docstring.fits_append (by decide) (hplain.notMem (by decide)))
  have hproperties : ∀ line ∈ (o.visibleProperties c.id).flatMap (propertyLines c), (CodeLine.code line).Proper :=
    List.forall_mem_flatMap.mpr fun p hp => proper_propertyLines ho hc
      (Ontology.mem_properties_of_mem_allProperties (List.mem_filter.mp hp).1)
  have hfirst : (CodeLine.code "    errors = []").Proper := ⟨by decide, by decide⟩
  have hlast : (CodeLine.code "    return errors").Proper := ⟨by decide, by decide⟩
  refine List.forall_mem_append.mpr ⟨?_, List.forall_mem_map.mpr ?_⟩
  · simp only [List.forall_mem_cons]
    exact ⟨hfunction, hdoc, nofun⟩
  · simp only [List.forall_mem_append, List.forall_mem_cons]
    exact ⟨⟨⟨hfirst, hinstance, hexpected, nofun⟩, hproperties⟩, hlast, nofun⟩

/-- The code of a check is its lines. -/
theorem spells_functionLines (ho : o.Legible) (hc : c ∈ o.classes) (package : String) :
    CodeLine.Spells (functionLines o c) (Backend.instanceChecks.text o package (.ofClass c)) where
  filled := List.cons_ne_nil _ _
  proper := proper_functionLines ho hc
  text_eq := (Backend.spell_itemLines package (.ofClass c)).symm

/-- The code of a class and that of its check, read line by line. -/
structure Reading (o : Ontology) (g k : Sheet) (c : Class) where
  owner : String
  code : List CodeLine
  check : List CodeLine
  defined : DataModel.definedClass? (Backend.dataModel.text o g.package (.ofClass c)) = some owner
  code_spells : CodeLine.Spells code (Backend.dataModel.text o g.package (.ofClass c))
  check_spells : CodeLine.Spells check (Backend.instanceChecks.text o k.package (.ofClass c))

namespace Reading

variable {g k : Sheet}

/-- The names under which the constructor stores attributes. -/
def stored (r : Reading o g k c) : List String := CodeLine.stored r.owner r.code

/-- The names that the check reads. -/
def reads (r : Reading o g k c) : List String := r.check.flatMap CodeLine.reads

end Reading

end InstanceChecks

namespace Schema

variable {s : Schema} {o : Ontology}

/-- The classes of a valid schema and their checks are written as lines that can be read. A check reads the attributes
of the properties that hold a list or are required. What it reads is stored by the constructor exactly if it is not
private, so that all of it is stored exactly if none of these properties has a private name. -/
theorem checked_attributes_stored_iff (hs : s.problems = []) (h : s.build = .ok o) :
    Backend.dataModel.Publishes o (Backend.dataModel.sheets o) ∧
      Backend.instanceChecks.Publishes o (Backend.instanceChecks.sheets o) ∧
      ∀ g ∈ Backend.dataModel.sheets o, ∀ k ∈ Backend.instanceChecks.sheets o, ∀ c, .ofClass c ∈ g.items →
        .ofClass c ∈ k.items → ∃ r : InstanceChecks.Reading o g k c,
          (∀ a, a ∈ r.reads ↔ ∃ p ∈ o.visibleProperties c.id,
            (p.cardinality.isIterative = true ∨ p.cardinality.isRequired = true) ∧ a = Naming.attributeName p.name) ∧
          (∀ a ∈ r.reads, a ∈ r.stored ↔ Naming.isPrivate a = false) ∧
          ((∀ a ∈ r.reads, a ∈ r.stored) ↔ ∀ p ∈ o.visibleProperties c.id,
            p.cardinality.isIterative = true ∨ p.cardinality.isRequired = true → Naming.isPrivate p.name = false) := by
  have ho := legible_of_build hs h
  have hclasses : Backend.dataModel.Publishes o (Backend.dataModel.sheets o) :=
    Backend.publishes_sheets ho.toWired (by decide)
  have hchecks : Backend.instanceChecks.Publishes o (Backend.instanceChecks.sheets o) :=
    Backend.publishes_sheets ho.toWired (by decide)
  refine ⟨hclasses, hchecks, fun g hg k _ c hc _ => ?_⟩
  have hitem := ((hclasses.items g hg _).mp hc).1
  have hmem : c ∈ o.classes := Ontology.ofClass_mem_items.mp hitem
  have hname : Grammar.isName c.name = true := isName_of_mem_items hs h hitem
  have hnames (p : Property) (hp : p ∈ o.visibleProperties c.id) : ∀ x ∈ p.name.toList, Grammar.isNameChar x = true :=
    isNameChar_of_mem_properties hs h (Ontology.mem_properties_of_mem_allProperties (List.mem_filter.mp hp).1)
  have hclass : '"' ∉ c.qualifiedName.toList := (ho.plain_qualifiedName hmem).notMem (by decide)
  let r : InstanceChecks.Reading o g k c := ⟨Naming.className c.name, DataModel.classLines o c g.package,
    InstanceChecks.functionLines o c, @DataModel.definedClass?_text o (.ofClass c) hname g.package,
    DataModel.spells_classLines ho hmem g.package, InstanceChecks.spells_functionLines ho hmem k.package⟩
  exact ⟨r, fun a => InstanceChecks.mem_reads_functionLines hnames hname hclass,
    fun a ha => InstanceChecks.mem_stored_iff hnames hname hclass ha g.package,
    InstanceChecks.forall_mem_stored_iff hnames hname hclass g.package⟩

/-- A class with a required property of a given name. -/
def peach (name : String) : Schema :=
  ⟨"peach", "1", "", [⟨"orchard", some "Fruit.", some (.ofList [("peach", .object [("base", .null),
    ("is_abstract", .boolean false), ("properties", .list [.list [.text name, .text "str", .text "1.1"]])])]), none⟩]⟩

/-- The check of a peach reads its stone, which the constructor stores. A private stone is read as well, but it is
stored under another name. -/
theorem peach_attributes_stored :
    (∃ o, (peach "stone").build = .ok o ∧ ∃ g ∈ Backend.dataModel.sheets o, ∃ k ∈ Backend.instanceChecks.sheets o,
      ∃ c, ∃ r : InstanceChecks.Reading o g k c, "stone" ∈ r.reads ∧ ∀ a ∈ r.reads, a ∈ r.stored) ∧
    ∃ o, (peach "__stone").build = .ok o ∧ ∃ g ∈ Backend.dataModel.sheets o, ∃ k ∈ Backend.instanceChecks.sheets o,
      ∃ c, ∃ r : InstanceChecks.Reading o g k c, "__stone" ∈ r.reads ∧ "__stone" ∉ r.stored := by
  have hread (name : String) (hs : (peach name).problems = [])
      (hbuild : (peach name).build.map (fun o => o.classes.map fun c => (c.isAbstract, (o.visibleProperties c.id).map
        fun p => (p.name, p.cardinality.isRequired))) = .ok [(false, [(name, true)])]) :
      ∃ o, (peach name).build = .ok o ∧ ∃ g ∈ Backend.dataModel.sheets o, ∃ k ∈ Backend.instanceChecks.sheets o,
        ∃ c, ∃ r : InstanceChecks.Reading o g k c, Naming.attributeName name ∈ r.reads ∧
          (∀ a ∈ r.reads, a ∈ r.stored ↔ Naming.isPrivate a = false) ∧
          ((∀ a ∈ r.reads, a ∈ r.stored) ↔ Naming.isPrivate name = false) := by
    obtain ⟨o, ho, hlisted⟩ := Declaration.map_eq_ok.mp hbuild
    obtain ⟨hclasses, hchecks, hreadings⟩ := checked_attributes_stored_iff hs ho
    obtain ⟨c, hc⟩ := List.length_eq_one_iff.mp ((List.length_map _).symm.trans (congrArg List.length hlisted))
    rw [hc, List.map_singleton, List.singleton_inj, Prod.mk.injEq] at hlisted
    obtain ⟨habstract, hproperties⟩ := hlisted
    obtain ⟨p, hp⟩ := List.length_eq_one_iff.mp ((List.length_map _).symm.trans (congrArg List.length hproperties))
    rw [hp, List.map_singleton, List.singleton_inj, Prod.mk.injEq] at hproperties
    obtain ⟨rfl, hrequired⟩ := hproperties
    have hmem : Item.ofClass c ∈ o.items := Ontology.ofClass_mem_items.mpr (hc ▸ List.mem_singleton_self c)
    obtain ⟨g, hg, hcg⟩ := hclasses.complete _ hmem rfl
    obtain ⟨k, hk, hck⟩ := hchecks.complete _ hmem (congrArg not habstract)
    obtain ⟨r, hreads, hstored, hall⟩ := hreadings g hg k hk c hcg hck
    have hread := (hreads _).mpr ⟨p, hp ▸ List.mem_singleton_self p, .inr hrequired, rfl⟩
    refine ⟨o, ho, g, hg, k, hk, c, r, hread, hstored, ?_⟩
    rw [hall, hp]
    simp [hrequired]
  constructor
  · obtain ⟨o, ho, g, hg, k, hk, c, r, hstone, -, hall⟩ := hread "stone" (by decide +kernel) (by cbv)
    exact ⟨o, ho, g, hg, k, hk, c, r, hstone, hall.mpr (by decide)⟩
  · obtain ⟨o, ho, g, hg, k, hk, c, r, hstone, hstored, -⟩ := hread "__stone" (by decide +kernel) (by cbv)
    exact ⟨o, ho, g, hg, k, hk, c, r, hstone, fun hset => absurd ((hstored _ hstone).mp hset) (by decide)⟩

end Schema

end OntologyCompiler
