import OntologyCompiler.Proofs.Imports.Broken
import OntologyCompiler.Proofs.Loading.Names

/-!
# Where imports lead

Without unresolved references every dotted type name of a property is in the index, whose names start
with the names of packages. So what a class needs is always in one of the packages of the ontology.
-/

namespace OntologyCompiler

namespace Ontology

variable {o o' : Ontology} {c : ClassId} {e : ImportEdge}

/-- Findings stay. -/
theorem Extends.mem {made : DiagnosticCode} (h : Extends made o o') {d : Diagnostic} (hd : d ∈ o.diagnostics) :
    d ∈ o'.diagnostics := by
  obtain ⟨es, hes, -⟩ := h
  rw [hes]
  exact List.mem_append_left es hd

/-- Findings about types stay until an ontology is resolved. -/
theorem mem_diagnostics_resolve {d : Diagnostic}
    (hd : d ∈ o.bindBases.cutInheritanceCycles.bindTypes.diagnostics) : d ∈ o.resolve.diagnostics := by
  rw [resolve]
  apply (extends_reportPackageCycles _).mem
  change d ∈ (Ontology.breakCircularImports _).diagnostics
  exact (extends_breakCircularImports _).mem hd

/-- Without unresolved references no finding says so. -/
theorem code_ne_of_unresolvedCount_eq_zero (h : o.diagnostics.unresolvedCount = 0) {d : Diagnostic}
    (hd : d ∈ o.diagnostics) : d.code ≠ .unresolvedType := by
  intro hcode
  have hnot := List.countP_eq_zero.mp h d hd
  rw [hcode] at hnot
  exact hnot rfl

end Ontology

namespace Schema

variable {s : Schema} {o : Ontology} {c : ClassId} {e : ImportEdge}

/-- Without unresolved references every dotted type name of a property is in the index. -/
theorem exists_entity_of_build (h : s.build = .ok o) (hresolved : o.diagnostics.unresolvedCount = 0)
    {p : Property} (hp : p ∈ o.properties) {parts : String × String}
    (hsplit : p.type.qualifiedParts = some parts) :
    ∃ entity, o.index.get? p.type.name = some entity := by
  obtain ⟨ps, hps, rfl⟩ := build_eq_ok_iff.mp h
  obtain ⟨q, hq, hunbound, -, hname⟩ := exists_unbound_of_declarations hps hp
  rw [ValueType.qualifiedParts, hname] at hsplit
  rw [index_resolve_assemble, hname]
  cases hget : (Assembly.index ps).get? q.type.name with
  | some entity => exact ⟨entity, rfl⟩
  | none =>
    let t := (Ontology.assemble s.name s.version s.doc ps).bindBases.cutInheritanceCycles
    have hindex : t.index = Assembly.index ps := by
      have hfixed := (Ontology.fixed_cutInheritanceCycles _).trans
        (Ontology.fixed_bindBases (.assemble s.name s.version s.doc ps))
      exact (congrArg Ontology.index hfixed :)
    have hproperties : t.properties = Assembly.properties ps := Ontology.properties_cutInheritanceCycles _
    have hfound : t.danglingProperty? q =
        some (.unresolvedType (t.className q.owner ++ "." ++ q.name) q.type.name) := by
      rw [Ontology.danglingProperty?, hindex]
      exact hunbound.danglingType?_eq hsplit hget
    have hmem := List.mem_append_left (t.classes.flatMap t.danglingDecodings) <|
      List.mem_append_right t.diagnostics (List.mem_filterMap.mpr ⟨q, hproperties ▸ hq, hfound⟩)
    have hfinding := Ontology.mem_diagnostics_resolve hmem
    exact absurd rfl (Ontology.code_ne_of_unresolvedCount_eq_zero hresolved hfinding)

/-- A name in the index of a built ontology starts with the name of a package. -/
theorem exists_package_of_get?_index (h : s.build = .ok o) {name : String} {entity : EntityId}
    (hentity : o.index.get? name = some entity) :
    ∃ p ∈ o.packages, ∃ typeName, name = p.name ++ "." ++ typeName := by
  obtain ⟨ps, hps, rfl⟩ := build_eq_ok_iff.mp h
  obtain ⟨-, hqualified, htypes⟩ := Declaration.readPackages_names hps
  have hnodup := (Declaration.readPackages_ok_iff.mp ⟨ps, hps⟩).2.2
  rw [← hqualified] at hnodup
  rw [index_resolve_assemble] at hentity
  have hmem := Assembly.mem_qualifiedNames_of_get?_index hnodup hentity
  obtain ⟨d, hd, t, ht, rfl⟩ : ∃ d ∈ ps, ∃ t ∈ d.types, t.qualifiedName = name := by simpa using hmem
  obtain ⟨i, hi⟩ := List.mem_iff_getElem?.mp hd
  obtain ⟨q, hq, hname⟩ := Assembly.exists_getElem?_packages hi
  have hassembled : (Ontology.assemble s.name s.version s.doc ps).package? ⟨i⟩ = some q := hq
  obtain ⟨associated, external, hp⟩ := Ontology.exists_package?_of_fixed_eq (Ontology.fixed_resolve _) hassembled
  exact ⟨_, List.mem_of_getElem? hp, t.name, hname ▸ htypes d hd t ht⟩

/-- Without unresolved references what a class needs is in a package. -/
theorem exists_package_of_needs (hs : s.problems = []) (h : s.build = .ok o)
    (hresolved : o.diagnostics.unresolvedCount = 0) (hneeds : o.Needs c e) :
    ∃ p ∈ o.packages, p.name = e.package := by
  have ho := arena_of_build h
  rcases hneeds.2 with ⟨b, -, ⟨x, hx⟩, heq⟩ | ⟨p, hp, hparts⟩
  · obtain ⟨p, hp⟩ := ho.class_package hx
    refine ⟨p, List.mem_of_getElem? hp, ?_⟩
    rw [heq, Ontology.edge_eq hx]
    simp [Ontology.edgeTo, Ontology.packageName, hp]
  · have hmem : p ∈ o.properties := by
      obtain ⟨x, hx⟩ := Ontology.class?_of_mem_ownProperties hp
      rw [Ontology.ownProperties_eq hx] at hp
      obtain ⟨id, -, hid⟩ := List.mem_filterMap.mp hp
      exact List.mem_of_getElem? hid
    obtain ⟨entity, hentity⟩ := exists_entity_of_build h hresolved hmem hparts
    obtain ⟨q, hq, typeName, hname⟩ := exists_package_of_get?_index h hentity
    rw [ValueType.qualifiedParts, hname] at hparts
    exact ⟨q, hq, (fst_of_splitQualified (isName_of_build hs h q hq) hparts).symm⟩

end Schema

end OntologyCompiler
