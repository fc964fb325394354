import OntologyCompiler.Proofs.Loading.Names

/-!
# Names that tell apart

Packages have different names, and so have classes and enumerations within a package. So sorting them by names
leaves no choice, whatever order they are listed in.
-/

namespace OntologyCompiler

/-- Packages, classes and enumerations are told apart by names. -/
structure Ontology.Distinct (o : Ontology) : Prop where
  arena : o.Arena
  packages : (o.packages.map Package.name).Nodup
  enums : (o.enums.map Enumeration.qualifiedName).Nodup
  enum_name : ∀ e ∈ o.enums, e.qualifiedName = o.packageName e.package ++ "." ++ e.name

namespace Ontology.Distinct

variable {o o' : Ontology}

/-- What tells apart is in the fixed part. -/
theorem of_fixed_eq (ho : o.Distinct) (h : o'.fixed = o.fixed) : o'.Distinct where
  arena := ho.arena.of_fixed_eq h
  packages := by
    have hname (o : Ontology) : o.fixed.packages.map Package.name = o.packages.map Package.name := by
      simp [fixed, Function.comp_def, Package.fixed]
    rw [← hname, h, hname]
    exact ho.packages
  enums := by
    have henums : o'.enums = o.enums := (congrArg Ontology.enums h :)
    exact henums ▸ ho.enums
  enum_name := by
    have henums : o'.enums = o.enums := (congrArg Ontology.enums h :)
    intro e he
    rw [packageName_of_fixed_eq h]
    exact ho.enum_name e (henums ▸ he)

/-- Types in one place of the order have one name in packages of one name. -/
theorem eq_and_eq_of_typeOrder {a b : String × PackageId} (h : o.typeOrder a b = .eq) :
    a.1 = b.1 ∧ o.packageName a.2 = o.packageName b.2 := by
  obtain ⟨hname, hpackage⟩ := Ordering.then_eq_eq.mp h
  exact ⟨Std.LawfulEqOrd.eq_of_compare hname, Std.LawfulEqOrd.eq_of_compare hpackage⟩

/-- Classes in one place of the order are one class. -/
theorem class_eq_of_typeOrder (ho : o.Distinct) {c d : Class} (hc : c ∈ o.classes) (hd : d ∈ o.classes)
    (h : o.typeOrder (c.name, c.package) (d.name, d.package) = .eq) : c = d := by
  obtain ⟨hname, hpackage⟩ := eq_and_eq_of_typeOrder h
  apply ho.arena.eq_of_qualifiedName_eq hc hd
  rw [ho.arena.class_name (ho.arena.class?_of_mem hc), ho.arena.class_name (ho.arena.class?_of_mem hd)]
  dsimp only at hname hpackage
  rw [hname, hpackage]

/-- Enumerations in one place of the order are one enumeration. -/
theorem enum_eq_of_typeOrder (ho : o.Distinct) {e f : Enumeration} (he : e ∈ o.enums) (hf : f ∈ o.enums)
    (h : o.typeOrder (e.name, e.package) (f.name, f.package) = .eq) : e = f := by
  obtain ⟨hname, hpackage⟩ := eq_and_eq_of_typeOrder h
  apply List.inj_on_of_nodup_map ho.enums he hf
  rw [ho.enum_name e he, ho.enum_name f hf]
  dsimp only at hname hpackage
  rw [hname, hpackage]

end Ontology.Distinct

namespace Assembly

variable {ps : List PackageDeclaration}

/-- The enumerations of a package are its declared types that are enumerations. -/
theorem mem_enums_iff {p : PackageDeclaration} {e : EnumDeclaration} : e ∈ p.enums ↔ .ofEnum e ∈ p.types := by
  simp only [PackageDeclaration.enums, List.mem_filterMap]
  constructor
  · rintro ⟨c | f, ht, h⟩
    · cases h
    · cases h
      exact ht
  · exact fun h => ⟨.ofEnum e, h, rfl⟩

/-- An assembled enumeration is declared in its package. -/
theorem exists_declaration_of_mem_enums {e : Enumeration} (h : e ∈ enums ps) :
    ∃ p, ps[e.package.index]? = some p ∧ ∃ d ∈ p.enums,
      e.name = d.name ∧ e.qualifiedName = d.qualifiedName ∧ e.members = d.members := by
  obtain ⟨⟨⟨package, d⟩, i⟩, hd, rfl⟩ := List.mem_map.mp h
  have hmem : (package, d) ∈ enumList ps := List.mem_of_getElem? (List.mem_zipIdx_iff_getElem?.mp hd)
  obtain ⟨⟨p, j⟩, hp, hmem⟩ := List.mem_flatMap.mp hmem
  obtain ⟨d', hd', heq⟩ := List.mem_map.mp hmem
  obtain ⟨rfl, rfl⟩ := Prod.mk.inj heq
  exact ⟨p, List.mem_zipIdx_iff_getElem?.mp hp, d', hd', rfl, rfl, rfl⟩

end Assembly

namespace Schema

variable {s : Schema} {o : Ontology}

/-- An assembled enumeration has the name of its package in front of its own. -/
theorem enum_name_of_declarations {ps : List PackageDeclaration} (h : s.declarations = .ok ps) :
    ∀ e ∈ (Ontology.assemble s.name s.version s.doc ps).enums,
      e.qualifiedName = (Ontology.assemble s.name s.version s.doc ps).packageName e.package ++ "." ++ e.name := by
  intro e he
  obtain ⟨-, -, htypes⟩ := Declaration.readPackages_names h
  obtain ⟨p, hp, d, hd, hname, hqualifiedName, -⟩ := Assembly.exists_declaration_of_mem_enums he
  obtain ⟨q, hq, hqname⟩ := Assembly.exists_getElem?_packages hp
  have hpackage : (Ontology.assemble s.name s.version s.doc ps).packageName e.package = p.name := by
    rw [Ontology.packageName, Ontology.package?, Ontology.assemble, hq, Option.map_some, Option.getD_some, hqname]
  rw [hpackage, hqualifiedName, hname]
  exact htypes p (List.mem_of_getElem? hp) _ (Assembly.mem_enums_iff.mp hd)

/-- The declarations of a schema with different package names are told apart by names when they are assembled. -/
theorem distinct_of_declarations {ps : List PackageDeclaration} (h : s.declarations = .ok ps)
    (hpackages : (s.packages.map Schema.Package.name).Nodup) :
    (Ontology.assemble s.name s.version s.doc ps).Distinct := by
  obtain ⟨hnames, hqualified, -⟩ := Declaration.readPackages_names h
  have hnodup := (Declaration.readPackages_ok_iff.mp ⟨ps, h⟩).2.2
  refine ⟨arena_of_declarations h, ?_, ?_, enum_name_of_declarations h⟩
  · rw [← hnames, ← Assembly.map_name_packages] at hpackages
    exact hpackages
  · exact (Assembly.nodup_qualifiedNames (hqualified ▸ hnodup)).of_append_right

/-- An enumeration of a built ontology has the name of its package in front of its own. -/
theorem enum_name_of_build (h : s.build = .ok o) :
    ∀ e ∈ o.enums, e.qualifiedName = o.packageName e.package ++ "." ++ e.name := by
  obtain ⟨ps, hps, rfl⟩ := build_eq_ok_iff.mp h
  have hfixed := Ontology.fixed_resolve (.assemble s.name s.version s.doc ps)
  have henums := (congrArg Ontology.enums hfixed :)
  intro e he
  rw [Ontology.packageName_of_fixed_eq hfixed]
  exact enum_name_of_declarations hps e (henums ▸ he)

/-- In a built ontology packages, classes and enumerations are told apart if the packages have different names. -/
theorem distinct_of_build (h : s.build = .ok o) (hpackages : (s.packages.map Schema.Package.name).Nodup) :
    o.Distinct := by
  obtain ⟨ps, hps, rfl⟩ := build_eq_ok_iff.mp h
  exact (distinct_of_declarations hps hpackages).of_fixed_eq (Ontology.fixed_resolve _)

end Schema

end OntologyCompiler
