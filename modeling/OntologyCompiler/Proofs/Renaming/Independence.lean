import Mathlib
import OntologyCompiler.Proofs.Renaming.Backends
import OntologyCompiler.Proofs.Renaming.Reading

/-!
# A build does not depend on the order of a schema

Reordered schemas have reordered declarations, these are assembled into a renamed ontology, and resolution keeps
the renaming. By names nothing is left of it, and neither is in the files of the backends for packages. Only the
root of the generated code lists packages in their order.
-/

namespace OntologyCompiler

namespace Schema

variable {s s' : Schema} (h : s.Reordered s')

include h

/-- A reordered schema has its package names in another order. -/
theorem Reordered.perm_names : (s.packages.map Package.name).Perm (s'.packages.map Package.name) :=
  h.packages.perm_map fun _ _ hp => hp.name_eq.symm

/-- A reordered schema is built if the schema is. -/
theorem Reordered.exists_build (hbuild : ∃ o, s.build = .ok o) : ∃ o', s'.build = .ok o' := by
  obtain ⟨o, ho⟩ := hbuild
  obtain ⟨ps, hps, -⟩ := build_eq_ok_iff.mp ho
  obtain ⟨ps', hps', -⟩ := Declaration.exists_readPackages h.packages hps
  exact ⟨_, build_eq_ok_iff.mpr ⟨ps', hps', rfl⟩⟩

/-- The declarations of a reordered schema are assembled into a renamed ontology. -/
theorem Reordered.exists_carries_assemble {ps ps' : List PackageDeclaration} (hps : s.declarations = .ok ps)
    (hps' : s'.declarations = .ok ps') : ∃ ρ : Renaming,
      ρ.Carries (.assemble s.name s.version s.doc ps) (.assemble s'.name s'.version s'.doc ps') := by
  obtain ⟨_, hqs, hshuffled⟩ := Declaration.exists_readPackages h.packages hps
  obtain rfl := Except.ok.inj (hps'.symm.trans hqs)
  obtain ⟨ρ, hρ⟩ := Assembly.Rearranged.exists_of_shuffled hshuffled
  have hnodup {s : Schema} {ps : List PackageDeclaration} (hps : s.declarations = .ok ps) :
      (ps.flatMap fun p => p.types.map TypeDeclaration.qualifiedName).Nodup := by
    rw [(Declaration.readPackages_names hps).2.1]
    exact (Declaration.readPackages_ok_iff.mp ⟨ps, hps⟩).2.2
  rw [h.name_eq, h.version_eq, h.doc_eq]
  exact ⟨ρ, hρ.carries (fun _ => Declaration.proper_of_readPackages hps)
    (fun _ => Declaration.proper_of_readPackages hps') (hnodup hps) (hnodup hps') _ _ _⟩

/-- If packages have different names, the ontology of a reordered schema is a renamed one. -/
theorem Reordered.exists_carries (hnames : (s.packages.map Package.name).Nodup) {o o' : Ontology}
    (ho : s.build = .ok o) (ho' : s'.build = .ok o') :
    ∃ ρ : Renaming, ρ.Carries o o' ∧ o.Distinct ∧ o'.Distinct := by
  obtain ⟨ps, hps, rfl⟩ := build_eq_ok_iff.mp ho
  obtain ⟨ps', hps', rfl⟩ := build_eq_ok_iff.mp ho'
  have hdistinct := distinct_of_declarations hps hnames
  have hdistinct' := distinct_of_declarations hps' (h.perm_names.nodup_iff.mp hnames)
  obtain ⟨ρ, hρ⟩ := h.exists_carries_assemble hps hps'
  exact ⟨ρ, hρ.resolve hdistinct hdistinct', hdistinct.of_fixed_eq (Ontology.fixed_resolve _),
    hdistinct'.of_fixed_eq (Ontology.fixed_resolve _)⟩

/-- The order of packages, of the properties of classes and of the members of enumerations makes no difference:
if packages have different names, the schema is built in any order or in none, the ontologies are the same by
names with all that is derived, and each backend but that of the root writes the same files in the same way. -/
theorem build_independent_of_order (hnames : (s.packages.map Package.name).Nodup) :
    ((∃ o, s.build = .ok o) ↔ ∃ o', s'.build = .ok o') ∧
      ∀ o o', s.build = .ok o → s'.build = .ok o' → o'.named = o.named ∧
        ∀ b : Backend, b ≠ .packageRoot → ∀ {ω : Type} (options : GenerationOptions) (w : Writer ω) (k : ω),
          b.generator.execute o' options w .empty k = b.generator.execute o options w .empty k := by
  refine ⟨⟨h.exists_build, h.symm.exists_build⟩, fun o o' ho ho' => ?_⟩
  obtain ⟨ρ, hρ, hdistinct, hdistinct'⟩ := h.exists_carries hnames ho ho'
  refine ⟨hρ.named hdistinct, fun b hb ω options w k => ?_⟩
  exact hρ.execute_eq (hρ.blind hdistinct' hb) hdistinct hdistinct' options w .empty k

omit h

/-- A package with a class and an enumeration, whose properties and members are listed in some order. -/
def islet (name : String) (properties members : List Json) : Package :=
  ⟨name, some "Birds.", some (.ofList [("bird", .object [("properties", .list properties)])]),
    some (.ofList [("color", .object [("members", .list members)])])⟩

/-- An islet with its properties and members in another order. -/
theorem reordered_islet {name : String} {properties properties' members members' : List Json}
    (hproperties : properties.Perm properties') (hmembers : members.Perm members') :
    (islet name properties members).Reordered (islet name properties' members') where
  name_eq := rfl
  doc_eq := rfl
  definitions := .cons ⟨rfl, rfl, .object (.cons (.list hproperties) .nil)⟩
    (.cons ⟨rfl, rfl, .object (.cons (.list hmembers) .nil)⟩ .nil)

/-- The properties of the birds of the first islet. -/
def gullProperties : List Json :=
  [.list [.text "rival", .text "tern.bird", .text "0.N"], .list [.text "color", .text "gull.color", .text "1.1"]]

/-- Two islets whose birds refer to each other. -/
def reef : Schema :=
  ⟨"reef", "1", "", [islet "gull" gullProperties [.text "grey", .text "black"],
    islet "tern" [.list [.text "rival", .text "gull.bird", .text "0.N"]] [.text "white"]]⟩

/-- The islets from the other side. -/
def leewardReef : Schema :=
  ⟨"reef", "1", "", [islet "tern" [.list [.text "rival", .text "gull.bird", .text "0.N"]] [.text "white"],
    islet "gull" gullProperties.reverse [.text "black", .text "grey"]]⟩

/-- The islets are built from both sides. Packages are in another order, so the ontologies are different, but by
names they are the same, and the backends for packages write the same files. -/
theorem reef_build_independent : reef.Reordered leewardReef ∧ ∃ o o', reef.build = .ok o ∧ leewardReef.build = .ok o' ∧
    o.packages.map (OntologyCompiler.Package.name) = ["gull", "tern"] ∧ o' ≠ o ∧ o'.named = o.named ∧
      DataModel.generator.execute o' default .memory .empty [] =
        DataModel.generator.execute o default .memory .empty [] ∧
      DecodingRules.generator.execute o' default .memory .empty [] =
        DecodingRules.generator.execute o default .memory .empty [] ∧
      InstanceChecks.generator.execute o' default .memory .empty [] =
        InstanceChecks.generator.execute o default .memory .empty [] := by
  have hreordered : reef.Reordered leewardReef := by
    refine ⟨rfl, rfl, rfl, [_, _], .cons (reordered_islet (List.reverse_perm _).symm (.swap _ _ [])) (.cons ?_ .nil),
      .swap _ _ []⟩
    exact reordered_islet (.refl _) (.refl _)
  have hnames : (reef.packages.map Package.name).Nodup := by decide
  have hread : (reef.declarations.map fun ps => ps.map PackageDeclaration.name) = .ok ["gull", "tern"] := by
    cbv
  obtain ⟨ps, hps, -⟩ := Declaration.map_eq_ok.mp hread
  obtain ⟨o, ho⟩ : ∃ o, reef.build = .ok o := ⟨_, build_eq_ok_iff.mpr ⟨ps, hps, rfl⟩⟩
  have hpackages := map_name_packages_of_build ho
  obtain ⟨hbuilt, hsame⟩ := build_independent_of_order hreordered hnames
  obtain ⟨o', ho'⟩ := hbuilt.mp ⟨o, ho⟩
  obtain ⟨hnamed, hexecute⟩ := hsame o o' ho ho'
  have hdifferent : o' ≠ o := by
    rintro rfl
    have hpackages' := map_name_packages_of_build ho'
    exact absurd (hpackages.symm.trans hpackages') (by decide)
  exact ⟨hreordered, o, o', ho, ho', hpackages, hdifferent, hnamed,
    hexecute .dataModel (by decide) default .memory [], hexecute .decodingRules (by decide) default .memory [],
    hexecute .instanceChecks (by decide) default .memory []⟩

end Schema

end OntologyCompiler
