import OntologyCompiler.Proofs.Arena
import OntologyCompiler.Proofs.Passes

/-!
# What property types point at

A type that is read points where its name leads by itself: at a scalar, if the name is a keyword, else
nowhere yet. A dotted name is no keyword, so binding makes its type point at whatever the index has under
that name. In a built ontology a property whose type names a class therefore points at that class.
-/

namespace OntologyCompiler

/-- A cut text is the two parts with the separator between them. -/
theorem Text.eq_append_of_cut? {separator : Char} {cs a b : List Char} (h : cut? separator cs = some (a, b)) :
    cs = a ++ separator :: b := by
  induction cs generalizing a with
  | nil => cases h
  | cons c cs ih =>
    unfold cut? at h
    split at h
    next heq =>
      obtain ⟨rfl, rfl⟩ := Prod.mk.inj (Option.some.inj h)
      rw [heq, List.nil_append]
    next =>
      obtain ⟨⟨a', b'⟩, hcut, heq⟩ := Option.map_eq_some_iff.mp h
      obtain ⟨rfl, rfl⟩ := Prod.mk.inj heq
      rw [List.cons_append, ← ih hcut]

/-- A name that splits is the package, a dot and the type name. -/
theorem eq_append_of_splitQualified {name package typeName : String}
    (h : splitQualified name = some (package, typeName)) : name = package ++ "." ++ typeName := by
  unfold splitQualified at h
  split at h
  next => cases h
  next a b hcut =>
    split at h
    next => cases h
    next =>
      obtain ⟨rfl, rfl⟩ := Prod.mk.inj (Option.some.inj h)
      apply String.toList_injective
      rw [Text.eq_append_of_cut? hcut, String.toList_append, String.toList_append, String.toList_ofList,
        String.toList_ofList]
      simp

/-- No keyword splits. -/
theorem ScalarKind.splitQualified_keyword (kind : ScalarKind) : splitQualified kind.keyword = none := by
  cases kind <;> decide

/-- A name that splits is no keyword. -/
theorem ScalarKind.ofKeyword?_of_splitQualified {name : String} {parts : String × String}
    (h : splitQualified name = some parts) : ofKeyword? name = none := by
  cases hkind : ofKeyword? name with
  | none => rfl
  | some kind =>
    have hkeyword : kind.keyword = name := by simpa using List.find?_some hkind
    rw [← hkeyword, splitQualified_keyword] at h
    cases h

namespace ValueType

/-- A type points at an entity if it is resolved to that. -/
theorem entity?_eq_some_iff {t : ValueType} {entity : EntityId} :
    t.entity? = some entity ↔ t.target = .resolved entity := by
  unfold entity?
  split
  next heq => simp [heq]
  next hother => exact ⟨fun h => (nomatch h), fun h => absurd h (hother entity)⟩

/-- A type points where its name leads by itself. -/
def Unbound (t : ValueType) : Prop := t.target = initialTarget t.name

/-- A type that is read is unbound. -/
theorem unbound_parse (raw : String) : (parse raw).Unbound := by
  unfold Unbound parse
  dsimp only
  split <;> rfl

/-- An unbound type whose name splits points nowhere. -/
theorem Unbound.target_eq {t : ValueType} {parts : String × String} (h : t.Unbound)
    (hsplit : t.qualifiedParts = some parts) : t.target = .unresolved t.name := by
  rw [show t.target = initialTarget t.name from h, initialTarget, ScalarKind.ofKeyword?_of_splitQualified hsplit]

/-- An unbound type whose name splits is bound to what the index has under the name. -/
theorem Unbound.entity?_bindType {t : ValueType} {index : OrderedMap String EntityId} {entity : EntityId}
    {parts : String × String} (h : t.Unbound) (hsplit : t.qualifiedParts = some parts)
    (hindex : index.get? t.name = some entity) : (Ontology.bindType index t).target = .resolved entity := by
  simp [Ontology.bindType, isResolved, h.target_eq hsplit, hindex]

/-- An unbound type whose name splits is found missing if the index has nothing under the name. -/
theorem Unbound.danglingType?_eq {t : ValueType} {index : OrderedMap String EntityId} {owner : String}
    {parts : String × String} (h : t.Unbound) (hsplit : t.qualifiedParts = some parts)
    (hindex : index.get? t.name = none) :
    Ontology.danglingType? index owner t = some (.unresolvedType owner t.name) := by
  simp [Ontology.danglingType?, isResolved, h.target_eq hsplit, hindex]

end ValueType

namespace Declaration

/-- Every property that is read has the type that an entry gives. -/
theorem exists_entry_of_readProperties {owner : String} {docStrings : List (String × Json)}
    {seen : List String} {entries : List Json} {ps : List PropertyDeclaration}
    (h : readProperties owner docStrings seen entries = .ok ps) :
    ∀ p ∈ ps, ∃ entry ∈ entries, ∃ raw, HasType entry raw ∧ p.type = .parse raw := by
  intro p hp
  obtain ⟨entry, hentry, hread⟩ := (readsDistinct_readProperties owner docStrings).exists_entry h hp
  exact ⟨entry, hentry, exists_type_of_readProperty hread⟩

/-- A class declaration is read from the definition of a class. -/
def ReadFrom (package : String) (d : Definition) (c : ClassDeclaration) : Prop :=
  d.kind = .ofClass ∧ ∃ body, d.body = .object body ∧
    readClass d.name (package ++ "." ++ d.name) body = .ok c

/-- What is read as a class is the definition of a class. -/
theorem readFrom_of_readType {package : String} {d : Definition} {c : ClassDeclaration}
    (h : readType package [] d = .ok (.ofClass c)) : ReadFrom package d c := by
  simp only [readType, guard_eq_ok] at h
  obtain ⟨-, h⟩ := h
  split at h
  next body hbody =>
    split at h
    next hkind =>
      obtain ⟨e, he, heq⟩ := map_eq_ok.mp h
      obtain rfl := TypeDeclaration.ofClass.inj heq
      exact ⟨hkind, body, hbody, he⟩
    next =>
      obtain ⟨e, -, heq⟩ := map_eq_ok.mp h
      cases heq
  next => exact absurd h fail_ne_ok

/-- A class is read from a definition of a package of the schema. -/
theorem exists_definition_of_readPackages {seen : List String} {ps : List Schema.Package}
    {qs : List PackageDeclaration} (h : readPackages seen ps = .ok qs) {q : PackageDeclaration} (hq : q ∈ qs)
    {c : ClassDeclaration} (hc : c ∈ q.classes) :
    ∃ p ∈ ps, ∃ d ∈ p.definitions, ReadFrom p.name d c := by
  obtain ⟨p, hp, hread⟩ := readsDistinct_readPackages.exists_entry h hq
  obtain ⟨ts, hts, rfl⟩ := map_eq_ok.mp hread
  obtain ⟨d, hd, ht⟩ := (readsDistinct_readTypes p.name).exists_entry hts (Assembly.mem_classes_iff.mp hc)
  exact ⟨p, hp, d, hd, readFrom_of_readType ht⟩

/-- The properties of a declared class are read with unbound types. -/
theorem unbound_of_readPackages {seen : List String} {ps : List Schema.Package} {qs : List PackageDeclaration}
    (h : readPackages seen ps = .ok qs) {q : PackageDeclaration} (hq : q ∈ qs) {c : ClassDeclaration}
    (hc : c ∈ q.classes) : ∀ p ∈ c.properties, p.type.Unbound := by
  intro p hp
  obtain ⟨_, -, d, -, -, body, -, hread⟩ := exists_definition_of_readPackages h hq hc
  simp only [readClass, bind_eq_ok, pure_eq_ok] at hread
  obtain ⟨_, _, ps, hps, _, _, _, _, _, _, _, _, rfl⟩ := hread
  obtain ⟨_, -, raw, -, htype⟩ := exists_entry_of_readProperties hps p hp
  rw [htype]
  exact ValueType.unbound_parse raw

end Declaration

/-- An assembled property is declared in a class. -/
theorem Assembly.exists_declaration_of_mem_properties {ps : List PackageDeclaration} {p : Property}
    (h : p ∈ properties ps) : ∃ q ∈ ps, ∃ c ∈ q.classes, ∃ d ∈ c.properties,
      p.name = d.name ∧ p.type = d.type ∧ p.cardinality = d.cardinality := by
  obtain ⟨⟨⟨owner, package, d⟩, i⟩, hd, rfl⟩ := List.mem_map.mp h
  have hmem : (owner, package, d) ∈ propertyList ps := List.mem_of_getElem? (List.mem_zipIdx_iff_getElem?.mp hd)
  obtain ⟨⟨⟨home, c⟩, j⟩, hc, hmem⟩ := List.mem_flatMap.mp hmem
  obtain ⟨d', hd', heq⟩ := List.mem_map.mp hmem
  have hlisted : (home, c) ∈ classList ps := List.mem_of_getElem? (List.mem_zipIdx_iff_getElem?.mp hc)
  obtain ⟨q, hq, hcq⟩ := mem_classList_iff.mp hlisted
  simp only [Prod.mk.injEq] at heq
  obtain ⟨-, -, rfl⟩ := heq
  exact ⟨q, List.mem_of_getElem? hq, c, hcq, d', hd', rfl, rfl, rfl⟩

namespace Ontology

/-- Cutting inheritance cycles leaves properties alone. -/
theorem properties_cutInheritanceCycles (o : Ontology) : o.cutInheritanceCycles.properties = o.properties := by
  refine foldl_keeps Ontology.properties (fun o id => ?_) _ o
  unfold cutCycleAt
  split <;> rfl

/-- Breaking circular imports leaves properties alone. -/
theorem properties_breakCircularImports (o : Ontology) : o.breakCircularImports.properties = o.properties := by
  refine foldl_keeps Ontology.properties (fun o pair => ?_) _ o
  unfold deferImport
  split
  · dsimp only
    split <;> rfl
  · rfl

/-- The properties of a resolved ontology are those given with their types bound. -/
theorem properties_resolve (o : Ontology) :
    o.resolve.properties = o.properties.map fun p => { p with type := bindType o.index p.type } := by
  change (Ontology.breakCircularImports _).properties = _
  rw [properties_breakCircularImports]
  have hindex : o.bindBases.cutInheritanceCycles.index = o.index := by
    have hfixed := (fixed_cutInheritanceCycles o.bindBases).trans (fixed_bindBases o)
    exact (congrArg Ontology.index hfixed :)
  change o.bindBases.cutInheritanceCycles.properties.map (fun p =>
    { p with type := bindType o.bindBases.cutInheritanceCycles.index p.type }) = _
  rw [hindex, properties_cutInheritanceCycles]
  rfl

end Ontology

namespace Schema

variable {s : Schema} {o : Ontology} {p : Property} {parts : String × String}

/-- The index of a built ontology is that of its declarations. -/
theorem index_resolve_assemble (ps : List PackageDeclaration) :
    (Ontology.assemble s.name s.version s.doc ps).resolve.index = Assembly.index ps :=
  (congrArg Ontology.index (Ontology.fixed_resolve (.assemble s.name s.version s.doc ps)) :)

/-- A property of a resolved ontology is a declared one with its unbound type bound. -/
theorem exists_unbound_of_declarations {ps : List PackageDeclaration} (h : s.declarations = .ok ps)
    (hp : p ∈ (Ontology.assemble s.name s.version s.doc ps).resolve.properties) :
    ∃ q ∈ Assembly.properties ps, q.type.Unbound ∧ p.type = Ontology.bindType (Assembly.index ps) q.type ∧
      p.type.name = q.type.name := by
  rw [Ontology.properties_resolve] at hp
  obtain ⟨q, hq, rfl⟩ := List.mem_map.mp hp
  obtain ⟨d, hd, c, hc, e, he, -, htype, -⟩ := Assembly.exists_declaration_of_mem_properties hq
  refine ⟨q, hq, htype ▸ Declaration.unbound_of_readPackages h hd hc e he, rfl, ?_⟩
  obtain ⟨target, htarget⟩ := Ontology.bindType_eq (Assembly.index ps) q.type
  change (Ontology.bindType (Assembly.index ps) q.type).name = q.type.name
  rw [htarget]

/-- A property of a resolved ontology is declared in a class, and its type is the declared one, bound. -/
theorem exists_declaration_of_mem_resolve {ps : List PackageDeclaration}
    (hp : p ∈ (Ontology.assemble s.name s.version s.doc ps).resolve.properties) :
    ∃ q ∈ ps, ∃ c ∈ q.classes, ∃ d ∈ c.properties, p.name = d.name ∧ p.cardinality = d.cardinality ∧
      p.type = Ontology.bindType (Assembly.index ps) d.type ∧ p.type.name = d.type.name ∧
        p.type.alternates = d.type.alternates := by
  rw [Ontology.properties_resolve] at hp
  obtain ⟨r, hr, rfl⟩ := List.mem_map.mp hp
  obtain ⟨q, hq, c, hc, d, hd, hname, htype, hcardinality⟩ := Assembly.exists_declaration_of_mem_properties hr
  refine ⟨q, hq, c, hc, d, hd, hname, hcardinality, ?_⟩
  obtain ⟨target, htarget⟩ := Ontology.bindType_eq (Assembly.index ps) r.type
  rw [← htype]
  exact ⟨rfl, (congrArg ValueType.name htarget :), (congrArg ValueType.alternates htarget :)⟩

/-- In a built ontology a type whose name splits points at whatever has that name. -/
theorem target_eq_of_build (h : s.build = .ok o) (hp : p ∈ o.properties)
    (hsplit : p.type.qualifiedParts = some parts) {entity : EntityId}
    (hentity : o.index.get? p.type.name = some entity) : p.type.target = .resolved entity := by
  obtain ⟨ps, hps, rfl⟩ := build_eq_ok_iff.mp h
  obtain ⟨q, -, hunbound, htype, hname⟩ := exists_unbound_of_declarations hps hp
  rw [index_resolve_assemble, hname] at hentity
  rw [ValueType.qualifiedParts, hname] at hsplit
  rw [htype]
  exact hunbound.entity?_bindType hsplit hentity

end Schema

end OntologyCompiler
