import OntologyCompiler.Proofs.Fingerprint.Legible
import OntologyCompiler.Proofs.Modules.Docstrings

/-!
# Names of generated classes

The class of a type is named by its words run together, each with a capital. So an underscore shows in the name of the
class only if it makes a capital of a lower case letter behind it. In front of a digit, of another underscore or at the
end it leaves no trace, and types whose names differ in such underscores only get one class name. In the module of their
package the later class then takes the name of the earlier one.
-/

namespace OntologyCompiler

/-- A name starts with a lower case letter. -/
theorem Grammar.exists_cons_of_isName {name : String} (h : isName name = true) :
    ∃ c cs, name.toList = c :: cs ∧ isLowerLetter c = true := by
  unfold isName at h
  cases hchars : name.toList with
  | nil =>
    rw [hchars] at h
    cases h
  | cons c cs =>
    rw [hchars, isNameChars, Bool.and_eq_true] at h
    exact ⟨c, cs, rfl, h.1⟩

namespace Naming

/-- A name without the underscores that leave no trace in the name of a class: all but those in front of a lower case
letter. -/
def traced : List Char → List Char
  | [] => []
  | c :: cs => if c = '_' ∧ cs.head?.any Char.isLower = false then traced cs else c :: traced cs

/-- Capitals as an underscore and a small letter. -/
def spread (cs : List Char) : List Char := cs.flatMap fun c => if c.isUpper then ['_', c.toLower] else [c]

variable {c : Char} {cs : List Char} {a b : String}

/-- A character of a name is an underscore, a lower case letter or a digit. -/
theorem isNameChar_cases (h : Grammar.isNameChar c = true) :
    c = '_' ∨ c ≠ '_' ∧ isSeparator c = false ∧ c.isUpper = false ∧
      (c.isLower = true ∧ c.toUpper.isUpper = true ∧ c.toUpper.toLower = c ∨
        c.isDigit = true ∧ c.isLower = false ∧ c.toUpper = c) := by
  by_cases hunderscore : c = '_'
  · exact Or.inl hunderscore
  · have hupper := Grammar.isUpper_eq_false h
    refine Or.inr ⟨hunderscore, Grammar.isSeparator_eq_false h, hupper, ?_⟩
    cases hlower : c.isLower with
    | true =>
      refine Or.inl ⟨rfl, ?_, ?_⟩
      · rw [Char.isUpper_toUpper_eq_isAlpha, Char.isAlpha, hlower, Bool.or_true]
      · rw [Char.toLower_toUpper_eq_toLower, Char.toLower_eq_of_not_isUpper (by simp [hupper])]
    | false =>
      have hdigit : c.isDigit = true := by
        have hletter : Grammar.isLowerLetter c = false := hlower
        simpa [Grammar.isNameChar, hletter, hunderscore] using h
      exact Or.inr ⟨hdigit, rfl, Char.toUpper_eq_of_not_isLower (by simp [hlower])⟩

/-- What is no underscore leaves a trace. -/
theorem traced_cons_of_ne (h : c ≠ '_') : traced (c :: cs) = c :: traced cs := if_neg fun hc => h hc.1

/-- An underscore leaves a trace in front of a lower case letter only. -/
theorem traced_underscore :
    traced ('_' :: cs) = if cs.head?.any Char.isLower then '_' :: traced cs else traced cs := by
  cases hhead : cs.head?.any Char.isLower <;> simp [traced, hhead]

/-- Underscores are left out when words are run together. -/
theorem pascalChars_underscore (capital : Bool) : pascalChars capital ('_' :: cs) = pascalChars true cs := by
  simp [pascalChars]

/-- What does not separate words is kept, as a capital where a word starts. -/
theorem pascalChars_cons (hne : c ≠ '_') (hseparator : isSeparator c = false) (capital : Bool) :
    pascalChars capital (c :: cs) = (if capital then c.toUpper else c) :: pascalChars false cs := by
  simp [pascalChars, hne, hseparator]

/-- With its capitals spread, a name that is run together is the name with the underscores that leave a trace. A capital
at the start is as if an underscore stood in front. -/
theorem spread_pascalChars (h : ∀ c ∈ cs, Grammar.isNameChar c = true) (capital : Bool) :
    spread (pascalChars capital cs) = traced (if capital then '_' :: cs else cs) := by
  induction cs generalizing capital with
  | nil => cases capital <;> rfl
  | cons c cs ih =>
    obtain ⟨hc, hcs⟩ := List.forall_mem_cons.mp h
    rcases isNameChar_cases hc with rfl | ⟨hne, hseparator, hupper, hcase⟩
    · rw [pascalChars_underscore, ih hcs true, if_pos rfl]
      cases capital with
      | false => rfl
      | true =>
        rw [if_pos rfl]
        exact (@traced_underscore ('_' :: cs)).symm
    · have hspread := ih hcs false
      rw [if_neg Bool.false_ne_true] at hspread
      rw [pascalChars_cons hne hseparator, spread, List.flatMap_cons, ← spread, hspread]
      rcases hcase with ⟨hlower, hcapital, hsmall⟩ | ⟨-, hlower, hsame⟩
      · cases capital with
        | false => simp [hupper, traced_cons_of_ne hne]
        | true => simp [hcapital, hsmall, traced_cons_of_ne hne, traced_underscore, hlower]
      · cases capital with
        | false => simp [hupper, traced_cons_of_ne hne]
        | true => simp [hsame, hupper, traced_cons_of_ne hne, traced_underscore, hlower]

/-- Where no lower case letter comes first a capital changes nothing. -/
theorem pascalChars_true_eq (hhead : cs.head?.any Char.isLower = false) :
    pascalChars true cs = pascalChars false cs := by
  cases cs with
  | nil => rfl
  | cons c cs =>
    have hlower : c.isLower = false := hhead
    simp [pascalChars, Char.toUpper_eq_of_not_isLower, hlower]

/-- Underscores that leave no trace may be left out before words are run together. -/
theorem pascalChars_traced (h : ∀ c ∈ cs, Grammar.isNameChar c = true) (capital : Bool) :
    pascalChars capital (traced cs) = pascalChars capital cs := by
  induction cs generalizing capital with
  | nil => rfl
  | cons c cs ih =>
    obtain ⟨hc, hcs⟩ := List.forall_mem_cons.mp h
    rcases isNameChar_cases hc with rfl | ⟨hne, hseparator, -, -⟩
    · rw [traced_underscore, pascalChars_underscore]
      cases hhead : cs.head?.any Char.isLower with
      | true => rw [if_pos rfl, pascalChars_underscore, ih hcs]
      | false =>
        rw [if_neg Bool.false_ne_true, ih hcs]
        cases capital with
        | true => rfl
        | false => exact (pascalChars_true_eq hhead).symm
    · rw [traced_cons_of_ne hne, pascalChars_cons hne hseparator, pascalChars_cons hne hseparator, ih hcs]

/-- Two types have one class name exactly if their names are the same but for underscores that leave no trace. -/
theorem className_eq_iff (ha : Grammar.isName a = true) (hb : Grammar.isName b = true) :
    className a = className b ↔ traced a.toList = traced b.toList := by
  have hstart {name : String} (hname : Grammar.isName name = true) :
      traced ('_' :: name.toList) = '_' :: traced name.toList := by
    obtain ⟨c, cs, hchars, hlower⟩ := Grammar.exists_cons_of_isName hname
    have hhead : (c :: cs).head?.any Char.isLower = true := hlower
    rw [hchars, traced_underscore, if_pos hhead]
  have hspread {name : String} (hname : Grammar.isName name = true) :
      spread (pascalChars true name.toList) = '_' :: traced name.toList := by
    rw [spread_pascalChars (Grammar.isNameChar_of_mem hname), if_pos rfl, hstart hname]
  have hchars : className a = className b ↔ pascalChars true a.toList = pascalChars true b.toList := by
    rw [className, className, pascal, pascal, String.ofList_inj]
  rw [hchars]
  constructor
  · intro h
    have hsame := congrArg spread h
    rw [hspread ha, hspread hb] at hsame
    exact (List.cons.inj hsame).2
  · intro h
    rw [← pascalChars_traced (Grammar.isNameChar_of_mem ha), h, pascalChars_traced (Grammar.isNameChar_of_mem hb)]

/-- Words that are run together are letters and digits. -/
theorem isAlphanum_of_mem_pascalChars (h : ∀ c ∈ cs, Grammar.isNameChar c = true) (capital : Bool) :
    ∀ c ∈ pascalChars capital cs, c.isAlphanum = true := by
  induction cs generalizing capital with
  | nil => exact nofun
  | cons c cs ih =>
    obtain ⟨hc, hcs⟩ := List.forall_mem_cons.mp h
    rcases isNameChar_cases hc with rfl | ⟨hne, hseparator, -, hcase⟩
    · rw [pascalChars_underscore]
      exact ih hcs true
    · rw [pascalChars_cons hne hseparator]
      refine List.forall_mem_cons.mpr ⟨?_, ih hcs false⟩
      rcases hcase with ⟨hlower, hcapital, -⟩ | ⟨hdigit, -, hsame⟩
      · cases capital <;> simp [Char.isAlphanum, Char.isAlpha, hlower, hcapital]
      · cases capital <;> simp [Char.isAlphanum, hdigit, hsame]

/-- The name of a class is made of letters and digits. -/
theorem isAlphanum_of_mem_className (h : Grammar.isName a = true) :
    ∀ c ∈ (className a).toList, c.isAlphanum = true := by
  rw [className, pascal, String.toList_ofList]
  exact isAlphanum_of_mem_pascalChars (Grammar.isNameChar_of_mem h) true

end Naming

/-- The name that the code of a type defines: what stands between the first word and a parenthesis. -/
def DataModel.definedClass? (code : String) : Option String :=
  (Text.dropStart? "class ".toList code.toList).bind fun cs => (Text.cut? '(' cs).map fun parts => String.ofList parts.1

/-- The code of a type defines a class with the name of the type. -/
theorem DataModel.definedClass?_text {o : Ontology} {i : Item} (h : Grammar.isName i.name = true) (package : String) :
    definedClass? (Backend.dataModel.text o package i) = some (Naming.className i.name) := by
  have hname : '(' ∉ (Naming.className i.name).toList := fun hmem =>
    absurd (Naming.isAlphanum_of_mem_className h _ hmem) (by decide)
  have htext : ∃ rest, (Backend.dataModel.text o package i).toList =
      "class ".toList ++ ((Naming.className i.name).toList ++ '(' :: rest) := by
    rw [← Backend.spell_itemLines]
    cases i with
    | ofClass c =>
      rw [Backend.itemLines, classLines, List.cons_append, CodeLine.spell_cons]
      simp only [CodeLine.render, String.toList_append, List.append_assoc]
      exact ⟨_, rfl⟩
    | ofEnum e =>
      rw [Backend.itemLines, enumLines, List.cons_append, CodeLine.spell_cons]
      simp only [CodeLine.render, String.toList_append, List.append_assoc]
      exact ⟨_, rfl⟩
  obtain ⟨rest, hrest⟩ := htext
  rw [definedClass?, hrest, Text.dropStart?_append, Option.bind_some, Text.cut?_append hname, Option.map_some,
    String.ofList_toList]

/-- The names that the code on a sheet of the data model defines, in order. -/
def DataModel.definitions (o : Ontology) (g : Sheet) : List (Option String) :=
  g.items.map fun i => definedClass? (Backend.dataModel.text o g.package i)

namespace Schema

variable {s : Schema} {o : Ontology}

/-- A type of an ontology built from a valid schema has a name, which stands behind that of its package. -/
theorem isName_of_get?_index (hs : s.problems = []) (h : s.build = .ok o) {id : PackageId} {name : String}
    {entity : EntityId} (hentity : o.index.get? (o.packageName id ++ "." ++ name) = some entity) :
    Grammar.isName name = true := by
  obtain ⟨p, hp, d, hd, heq⟩ := exists_definition_of_get?_index h hentity
  have hdot {package : String} (hpackage : ∀ c ∈ package.toList, Grammar.isNameChar c = true) : '.' ∉ package.toList :=
    fun hmem => absurd (hpackage _ hmem) (by decide)
  have hchars (package name : String) : (package ++ "." ++ name).toList = package.toList ++ '.' :: name.toList := by
    simp [String.toList_append]
  have hsplit := congrArg String.toList heq
  rw [hchars, hchars] at hsplit
  have hpackage := Grammar.isNameChar_of_mem (isName_of_problems_eq_nil hs p hp)
  obtain ⟨-, hname⟩ := Text.append_separator_inj (hdot hpackage) (hdot (forall_isNameChar_packageName hs h id)) hsplit
  exact String.toList_injective hname ▸ isName_of_mem_definitions hs hp hd

/-- The types of an ontology built from a valid schema have names. -/
theorem isName_of_mem_items (hs : s.problems = []) (h : s.build = .ok o) {i : Item} (hi : i ∈ o.items) :
    Grammar.isName i.name = true := by
  have ho := wired_of_build h
  rcases List.mem_append.mp hi with hclass | henum
  · obtain ⟨c, hc, rfl⟩ := List.mem_map.mp hclass
    have hfound := ho.class?_of_mem (o.listing_sorted.classes_perm.mem_iff.mp hc)
    exact isName_of_get?_index hs h (ho.index_class.mpr ⟨c, hfound, ho.class_name hfound⟩)
  · obtain ⟨e, he, rfl⟩ := List.mem_map.mp henum
    have hmem := o.listing_sorted.enums_perm.mem_iff.mp he
    obtain ⟨n, hn⟩ := List.mem_iff_getElem?.mp hmem
    have hfound : o.enum? ⟨n⟩ = some e := hn
    exact isName_of_get?_index hs h (ho.index_enum.mpr ⟨e, hfound, enum_name_of_build h e hmem⟩)

/-- The sheets written for an ontology built from a valid schema have the code of each type once, which defines a class
named after the type. The definitions on a sheet are different exactly if the names of its types are different without
the underscores that leave no trace. -/
theorem definitions_nodup_iff (hs : s.problems = []) (h : s.build = .ok o) :
    Backend.dataModel.Publishes o (Backend.dataModel.sheets o) ∧
      ∀ g ∈ Backend.dataModel.sheets o,
        DataModel.definitions o g = g.items.map (fun i => some (Naming.className i.name)) ∧
          ((DataModel.definitions o g).Nodup ↔ (g.items.map fun i => Naming.traced i.name.toList).Nodup) := by
  have hsheets : Backend.dataModel.Publishes o (Backend.dataModel.sheets o) :=
    Backend.publishes_sheets (wired_of_build h) (by decide)
  refine ⟨hsheets, fun g hg => ?_⟩
  have hname (i : Item) (hi : i ∈ g.items) : Grammar.isName i.name = true :=
    isName_of_mem_items hs h ((hsheets.items g hg i).mp hi).1
  have hdefinitions : DataModel.definitions o g = g.items.map (fun i => some (Naming.className i.name)) :=
    List.map_congr_left fun i hi => DataModel.definedClass?_text (hname i hi) g.package
  refine ⟨hdefinitions, ?_⟩
  rw [hdefinitions, List.nodup_map_iff_inj_on (hsheets.nodup g hg), List.nodup_map_iff_inj_on (hsheets.nodup g hg)]
  refine forall₂_congr fun i hi => forall₂_congr fun j hj => ?_
  rw [Option.some_inj, Naming.className_eq_iff (hname i hi) (hname j hj)]

/-- A package with classes of the given names. -/
def grove (names : List String) : Schema :=
  ⟨"grove", "1", "", [⟨"wood", some "Trees.", some (.ofList (names.map fun name =>
    (name, .object [("base", .null), ("is_abstract", .boolean false)]))), none⟩]⟩

/-- An oak and an elm have different classes, two oaks that differ in an underscore have one. -/
theorem grove_definitions :
    (∃ o, (grove ["oak_tree", "elm_tree"]).build = .ok o ∧
      ∀ g ∈ Backend.dataModel.sheets o, (DataModel.definitions o g).Nodup) ∧
    ∃ o, (grove ["oak_tree", "oak__tree"]).build = .ok o ∧
      ∃ g ∈ Backend.dataModel.sheets o, ¬ (DataModel.definitions o g).Nodup := by
  constructor
  · have hs : (grove ["oak_tree", "elm_tree"]).problems = [] := by decide +kernel
    have hitems : (grove ["oak_tree", "elm_tree"]).build.map (fun o => o.items.map Item.name) =
        .ok ["elm_tree", "oak_tree"] := by cbv
    obtain ⟨o, ho, hnames⟩ := Declaration.map_eq_ok.mp hitems
    obtain ⟨hsheets, hdefinitions⟩ := definitions_nodup_iff hs ho
    refine ⟨o, ho, fun g hg => (hdefinitions g hg).2.mpr ?_⟩
    have htraced : (o.items.map fun i => Naming.traced i.name.toList).Nodup := by
      have hmap : o.items.map (fun i => Naming.traced i.name.toList) =
          (o.items.map Item.name).map fun name => Naming.traced name.toList := by rw [List.map_map]; rfl
      rw [hmap, hnames]
      decide
    refine (List.nodup_map_iff_inj_on (hsheets.nodup g hg)).mpr fun i hi j hj heq => ?_
    exact List.inj_on_of_nodup_map htraced ((hsheets.items g hg i).mp hi).1 ((hsheets.items g hg j).mp hj).1 heq
  · have hs : (grove ["oak_tree", "oak__tree"]).problems = [] := by decide +kernel
    have hitems : (grove ["oak_tree", "oak__tree"]).build.map (fun o => o.items.map fun i => (i.name, i.package)) =
        .ok [("oak__tree", ⟨0⟩), ("oak_tree", ⟨0⟩)] := by cbv
    obtain ⟨o, ho, hnames⟩ := Declaration.map_eq_ok.mp hitems
    obtain ⟨hsheets, hdefinitions⟩ := definitions_nodup_iff hs ho
    have hfound (name : String) (hname : (name, (⟨0⟩ : PackageId)) ∈ o.items.map fun i => (i.name, i.package)) :
        ∃ i ∈ o.items, i.name = name ∧ i.package = ⟨0⟩ := by
      obtain ⟨i, hi, heq⟩ := List.mem_map.mp hname
      obtain ⟨hname, hpackage⟩ := Prod.mk.inj heq
      exact ⟨i, hi, hname, hpackage⟩
    obtain ⟨i, hi, hiname, hipackage⟩ := hfound "oak__tree" (by rw [hnames]; decide)
    obtain ⟨j, hj, hjname, hjpackage⟩ := hfound "oak_tree" (by rw [hnames]; decide)
    obtain ⟨g, hg, hmem⟩ := hsheets.complete i hi (by cases i <;> rfl)
    have hpackage := ((hsheets.items g hg i).mp hmem).2.2
    have hmem' : j ∈ g.items := (hsheets.items g hg j).mpr ⟨hj, by cases j <;> rfl, by
      rw [hjpackage, ← hipackage, hpackage]⟩
    refine ⟨o, ho, g, hg, fun hnodup => ?_⟩
    have htraced := (hdefinitions g hg).2.mp hnodup
    have hsame : i = j := List.inj_on_of_nodup_map htraced hmem hmem' (by rw [hiname, hjname]; decide)
    have hnever : "oak__tree" = "oak_tree" := hiname.symm.trans ((congrArg Item.name hsame).trans hjname)
    exact absurd hnever (by decide)

end Schema

end OntologyCompiler
