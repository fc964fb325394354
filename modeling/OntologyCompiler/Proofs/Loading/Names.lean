import Mathlib
import OntologyCompiler.Backend.DataModel
import OntologyCompiler.Proofs.Types
import OntologyCompiler.Schema.Validation

/-!
# Names of packages and their modules

The name of a package that passes validation has lower case letters, digits and underscores only. It is
its own snake case form, so different packages have different modules, and it has no dot, so a qualified
name that starts with it splits behind it.
-/

namespace OntologyCompiler

/-- No character of a name is an upper case letter. -/
theorem Grammar.isUpper_eq_false {c : Char} (h : isNameChar c = true) : c.isUpper = false := by
  simp only [isNameChar, isLowerLetter, Char.isDigit, Bool.or_eq_true, Bool.and_eq_true, decide_eq_true_eq,
    beq_iff_eq, Char.le_def, UInt32.le_iff_toNat_le, ge_iff_le] at h
  simp only [Char.isUpper, decide_eq_false_iff_not, UInt32.le_iff_toNat_le, ge_iff_le]
  change ¬(65 ≤ c.val.toNat ∧ c.val.toNat ≤ 90)
  rcases h with (h | h) | h
  · change 97 ≤ c.val.toNat ∧ c.val.toNat ≤ 122 at h
    omega
  · change 48 ≤ c.val.toNat ∧ c.val.toNat ≤ 57 at h
    omega
  · subst h
    decide

/-- No character of a name separates words. -/
theorem Grammar.isSeparator_eq_false {c : Char} (h : isNameChar c = true) : Naming.isSeparator c = false := by
  by_contra hsep
  have hor : (c = '-' ∨ c = ' ') ∨ c = '.' := by
    simpa only [Naming.isSeparator, Bool.not_eq_false, Bool.or_eq_true, beq_iff_eq] using hsep
  rcases hor with (rfl | rfl) | rfl
  · exact absurd h (by decide)
  · exact absurd h (by decide)
  · exact absurd h (by decide)

/-- A name has the characters of names. -/
theorem Grammar.isNameChar_of_mem {name : String} (h : isName name = true) :
    ∀ c ∈ name.toList, isNameChar c = true := by
  unfold isName at h
  cases hchars : name.toList with
  | nil => simp
  | cons c cs =>
    rw [hchars, isNameChars, Bool.and_eq_true] at h
    refine List.forall_mem_cons.mpr ⟨?_, List.all_eq_true.mp h.2⟩
    simp [isNameChar, h.1]

namespace Naming

/-- Without upper case letters and separators nothing changes in snake case. -/
theorem snakeChars_eq_self {cs : List Char} (h : ∀ c ∈ cs, Grammar.isNameChar c = true) (word : Bool) :
    snakeChars word cs = cs := by
  induction cs generalizing word with
  | nil => rfl
  | cons c cs ih =>
    obtain ⟨hc, hcs⟩ := List.forall_mem_cons.mp h
    simp [snakeChars, Grammar.isUpper_eq_false hc, Grammar.isSeparator_eq_false hc, ih hcs]

/-- A name is its own snake case form. -/
theorem snake_eq_self {name : String} (h : Grammar.isName name = true) : snake name = name := by
  rw [snake, snakeChars_eq_self (Grammar.isNameChar_of_mem h), String.ofList_toList]

end Naming

/-- The data model module of a package. -/
theorem DataModel.moduleOf_eq (package : String) : moduleOf package = Naming.snake package ++ "_typeset" := rfl

/-- The data model module of a package with a name. -/
theorem DataModel.moduleOf_of_isName {package : String} (h : Grammar.isName package = true) :
    moduleOf package = package ++ "_typeset" := by
  rw [moduleOf_eq, Naming.snake_eq_self h]

/-- Packages with different names have different modules. -/
theorem DataModel.moduleOf_injOn {a b : String} (ha : Grammar.isName a = true) (hb : Grammar.isName b = true)
    (h : moduleOf a = moduleOf b) : a = b := by
  rw [moduleOf_of_isName ha, moduleOf_of_isName hb] at h
  have hchars := congrArg String.toList h
  simp only [String.toList_append] at hchars
  exact String.toList_injective (List.append_cancel_right hchars)

/-- A text is cut at the first separator. -/
theorem Text.cut?_append {separator : Char} {a b : List Char} (h : separator ∉ a) :
    cut? separator (a ++ separator :: b) = some (a, b) := by
  induction a with
  | nil => simp [cut?]
  | cons c a ih =>
    obtain ⟨hc, ha⟩ := not_or.mp (mt List.mem_cons.mpr h)
    simp [cut?, Ne.symm hc, ih ha]

/-- A qualified name splits behind the name of its package. -/
theorem fst_of_splitQualified {package name : String} {parts : String × String}
    (hpackage : Grammar.isName package = true) (h : splitQualified (package ++ "." ++ name) = some parts) :
    parts.1 = package := by
  have hdot : '.' ∉ package.toList := fun hmem => by
    have hname := Grammar.isNameChar_of_mem hpackage _ hmem
    exact absurd hname (by decide)
  have hchars : (package ++ "." ++ name).toList = package.toList ++ '.' :: name.toList := by simp
  rw [splitQualified, hchars, Text.cut?_append hdot] at h
  dsimp only at h
  split at h
  · cases h
  · cases h
    exact String.ofList_toList

/-- The assembled packages have the names of the declared ones. -/
theorem Assembly.map_name_packages (ps : List PackageDeclaration) :
    (packages ps).map Package.name = ps.map PackageDeclaration.name := by
  conv_rhs => rw [← List.zipIdx_map_fst 0 ps, List.map_map]
  rw [packages, List.map_map]
  rfl

namespace Schema

/-- The packages of a schema without problems have names. -/
theorem isName_of_problems_eq_nil {s : Schema} (h : s.problems = []) :
    ∀ p ∈ s.packages, Grammar.isName p.name = true := by
  intro p hp
  simp only [problems, List.append_eq_nil_iff, List.flatMap_eq_nil_iff] at h
  have hpackage := h.2 p hp
  simp only [Validation.checkPackage, List.append_eq_nil_iff] at hpackage
  obtain ⟨⟨⟨hname, -⟩, -⟩, -⟩ := hpackage
  by_contra hnot
  simp [Validation.require, hnot] at hname

/-- A built ontology has the packages of the schema. -/
theorem map_name_packages_of_build {s : Schema} {o : Ontology} (h : s.build = .ok o) :
    o.packages.map OntologyCompiler.Package.name = s.packages.map Schema.Package.name := by
  obtain ⟨ps, hps, rfl⟩ := build_eq_ok_iff.mp h
  obtain ⟨hnames, -, -⟩ := Declaration.readPackages_names hps
  have hfixed := congrArg (fun o : Ontology => o.packages.map OntologyCompiler.Package.name)
    (Ontology.fixed_resolve (.assemble s.name s.version s.doc ps))
  have hname (o : Ontology) : o.fixed.packages.map OntologyCompiler.Package.name =
      o.packages.map OntologyCompiler.Package.name := by
    simp [Ontology.fixed, Function.comp_def, OntologyCompiler.Package.fixed]
  rw [hname, hname] at hfixed
  rw [hfixed, ← hnames, ← Assembly.map_name_packages]
  rfl

/-- The packages of an ontology built from a schema without problems have names. -/
theorem isName_of_build {s : Schema} {o : Ontology} (hs : s.problems = []) (h : s.build = .ok o) :
    ∀ p ∈ o.packages, Grammar.isName p.name = true := by
  intro p hp
  have hname : p.name ∈ s.packages.map Schema.Package.name :=
    map_name_packages_of_build h ▸ List.mem_map_of_mem hp
  obtain ⟨q, hq, heq⟩ := List.mem_map.mp hname
  exact heq ▸ isName_of_problems_eq_nil hs q hq

end Schema

end OntologyCompiler
