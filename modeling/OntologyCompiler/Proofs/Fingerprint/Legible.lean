import OntologyCompiler.Proofs.Declarations.Types
import OntologyCompiler.Proofs.Fingerprint.Lines
import OntologyCompiler.Proofs.Imports.Broken
import OntologyCompiler.Proofs.References.WellFormed

/-!
# Names that can be read back

The names in a schema without problems have the characters of references only: lower case letters, digits,
underscores and dots. So in a text that is put together from them every blank, parenthesis and comma is put there by
the text, and a name ends where the first of these follows. The part of an edge in front of its first dot is the name
of its package, which has no dot.
-/

namespace OntologyCompiler

namespace Grammar

/-- A character of a name, or the dot between two names. -/
def isReferenceChar (c : Char) : Bool := isNameChar c || c == '.'

/-- All characters of the text may stand in a reference. -/
def Plain (s : String) : Prop := ∀ c ∈ s.toList, isReferenceChar c = true

variable {s t : String}

/-- Plain texts put together are plain. -/
theorem Plain.append (hs : Plain s) (ht : Plain t) : Plain (s ++ t) := by
  rw [Plain, String.toList_append]
  exact List.forall_mem_append.mpr ⟨hs, ht⟩

/-- A character that may not stand in a reference is in no plain text. -/
theorem Plain.notMem (hs : Plain s) {c : Char} (hc : isReferenceChar c = false) : c ∉ s.toList := by
  intro hmem
  rw [hs c hmem] at hc
  cases hc

/-- The characters of names may stand in references. -/
theorem plain_of_forall (h : ∀ c ∈ s.toList, isNameChar c = true) : Plain s := by
  intro c hc
  rw [isReferenceChar, h c hc, Bool.true_or]

/-- The empty text is plain. -/
theorem plain_empty : Plain "" := nofun

/-- A single dot is plain. -/
theorem plain_dot : Plain "." := by
  intro c hc
  obtain rfl := List.mem_singleton.mp hc
  decide

/-- A name is plain. -/
theorem plain_of_isName (h : isName s = true) : Plain s := plain_of_forall (isNameChar_of_mem h)

/-- The name of a property has the characters of names. -/
theorem isNameChar_of_isPropertyName (h : isPropertyName s = true) : ∀ c ∈ s.toList, isNameChar c = true := by
  intro c hc
  have hchar := List.all_eq_true.mp (Bool.and_eq_true_iff.mp h).2 c hc
  rcases Bool.or_eq_true_iff.mp hchar with hletter | hunderscore
  · exact isNameChar_of_isLowerLetter hletter
  · rw [isNameChar, hunderscore, Bool.or_true]

/-- The name of a property is plain. -/
theorem plain_of_isPropertyName (h : isPropertyName s = true) : Plain s :=
  plain_of_forall (isNameChar_of_isPropertyName h)

/-- A reference is plain. -/
theorem plain_of_isQualifiedName (h : isQualifiedName s = true) : Plain s := by
  unfold isQualifiedName isQualifiedChars at h
  split at h
  next => cases h
  next package typeName hcut =>
    obtain ⟨hpackage, hname⟩ := Bool.and_eq_true_iff.mp h
    have hchars (cs : List Char) (hcs : isNameChars cs = true) : ∀ c ∈ cs, isReferenceChar c = true := by
      intro c hc
      rw [isReferenceChar, forall_of_isNameChars hcs c hc, Bool.true_or]
    rw [Plain, Text.eq_append_of_cut? hcut]
    exact List.forall_mem_append.mpr ⟨hchars _ hpackage, List.forall_mem_cons.mpr ⟨by decide, hchars _ hname⟩⟩

/-- The keyword of a scalar is plain. -/
theorem plain_keyword (kind : ScalarKind) : Plain kind.keyword := by
  have hall : kind.keyword.toList.all isNameChar = true := by cases kind <;> decide
  exact plain_of_forall (List.all_eq_true.mp hall)

end Grammar

/-- The encoding of a cardinality is how it is written. -/
theorem Cardinality.render_of_parse? {encoding : String} {c : Cardinality} (h : parse? encoding = some c) :
    c.render = encoding := by
  have hmem : encoding ∈ encodings := parse?_isSome_iff.mp (Option.isSome_of_mem h)
  simp only [encodings, List.mem_cons, List.not_mem_nil, or_false] at hmem
  rcases hmem with rfl | rfl | rfl | rfl <;> (obtain rfl := Option.some.inj h; rfl)

/-- The names in a type without problems are plain. -/
theorem Validation.plain_of_typeProblem? {raw : String} (h : typeProblem? raw = none) :
    ∀ name ∈ (ValueType.parse raw).name :: (ValueType.parse raw).alternates, Grammar.Plain name := by
  intro name hname
  rcases names_of_typeProblem? h name hname with hqualified | hkeyword
  · exact Grammar.plain_of_isQualifiedName hqualified
  · obtain ⟨kind, hkind⟩ := Option.isSome_iff_exists.mp hkeyword
    rw [ScalarKind.ofKeyword?_eq_some_iff.mp hkind]
    exact Grammar.plain_keyword kind

/-- A property that is read has the cardinality of an encoding. -/
theorem Declaration.exists_encoding_of_readProperty {owner : String} {docStrings : List (String × Json)} {entry : Json}
    {p : PropertyDeclaration} (h : readProperty owner docStrings entry = .ok p) :
    ∃ encoding, Cardinality.parse? encoding = some p.cardinality := by
  rw [readProperty] at h
  simp only [bind_eq_ok, guard_eq_ok] at h
  obtain ⟨fields, -, name, -, -, type, -, encoding, -, h⟩ := h
  split at h
  next => exact absurd h fail_ne_ok
  next cardinality hparse =>
    obtain rfl := pure_eq_ok.mp h
    exact ⟨encoding, hparse⟩

namespace ImportEdge

/-- The edge is written with the characters of references, and its package ends at the first dot. -/
structure Legible (e : ImportEdge) : Prop where
  package : '.' ∉ e.package.toList
  plain : Grammar.Plain e.render

variable {e e' : ImportEdge}

/-- Edges that are written alike are the same. -/
theorem Legible.eq_of_render_eq (he : e.Legible) (he' : e'.Legible) (h : e.render = e'.render) : e = e' := by
  have hchars (e : ImportEdge) : e.render.toList = e.package.toList ++ '.' :: e.typeName.toList := by
    simp [render, String.toList_append]
  have hsplit := congrArg String.toList h
  rw [hchars, hchars] at hsplit
  obtain ⟨hpackage, htype⟩ := Text.append_separator_inj he.package he'.package hsplit
  cases e
  cases e'
  rw [ImportEdge.mk.injEq]
  exact ⟨String.toList_injective hpackage, String.toList_injective htype⟩

/-- The parts of a plain name make an edge. -/
theorem legible_of_splitQualified {name : String} {parts : String × String} (hname : Grammar.Plain name)
    (h : splitQualified name = some parts) : Legible ⟨parts.1, parts.2⟩ where
  package := by
    unfold splitQualified at h
    split at h
    next => cases h
    next package typeName hcut =>
      split at h
      next => cases h
      next =>
        obtain rfl := Option.some.inj h
        rw [String.toList_ofList]
        exact Text.notMem_of_cut? hcut
  plain := by
    have hrender : render ⟨parts.1, parts.2⟩ = name := (eq_append_of_splitQualified h).symm
    exact hrender ▸ hname

/-- Sets of edges that are written alike are the same. -/
theorem set_eq_of_render_eq {s t : OrderedSet ImportEdge} (hs : ∀ e ∈ s, e.Legible)
    (ht : ∀ e ∈ t, e.Legible) (h : s.toList.map render = t.toList.map render) : s = t := by
  apply OrderedSet.ext_toList
  have hsame := @map_eq_map_of_imp _ _ _ _ _ _ id id _ _ h fun e he e' he' => (hs e he).eq_of_render_eq (ht e' he')
  rwa [List.map_id, List.map_id] at hsame

end ImportEdge

/-- What a schema without problems is built into: all names are plain, edges can be split, and types are bound by
their names. -/
structure Ontology.Legible (o : Ontology) : Prop extends o.Wired where
  entities : ∀ e, Grammar.Plain (o.entityName e)
  packages : ∀ id, Grammar.Plain (o.packageName id)
  imports : ∀ c ∈ o.classes, ∀ e, e ∈ c.imports ∨ e ∈ c.circularImports → e.Legible
  external : ∀ p ∈ o.packages, ∀ e ∈ p.externalTypes, e.Legible
  property_names : ∀ p ∈ o.properties, Grammar.Plain p.name
  type_names : ∀ p ∈ o.properties, ∀ name ∈ p.type.name :: p.type.alternates, Grammar.Plain name
  bound : ∀ p ∈ o.properties, p.type.BoundIn o.index
  cardinalities : ∀ p ∈ o.properties, Cardinality.parse? p.cardinality.render = some p.cardinality

namespace Schema

variable {s : Schema} {o : Ontology}

/-- A name in the index of a built ontology is that of a definition. -/
theorem exists_definition_of_get?_index (h : s.build = .ok o) {name : String} {entity : EntityId}
    (hentity : o.index.get? name = some entity) :
    ∃ p ∈ s.packages, ∃ d ∈ p.definitions, p.name ++ "." ++ d.name = name := by
  obtain ⟨ps, hps, rfl⟩ := build_eq_ok_iff.mp h
  obtain ⟨-, hqualified, -⟩ := Declaration.readPackages_names hps
  have hnodup := (Declaration.readPackages_ok_iff.mp ⟨ps, hps⟩).2.2
  rw [index_resolve_assemble] at hentity
  have hmem := hqualified ▸ Assembly.mem_qualifiedNames_of_get?_index (hqualified ▸ hnodup) hentity
  obtain ⟨p, hp, hname⟩ := List.mem_flatMap.mp hmem
  obtain ⟨d, hd, heq⟩ := List.mem_map.mp hname
  exact ⟨p, hp, d, hd, heq⟩

/-- The definitions of a schema without problems have names. -/
theorem isName_of_mem_definitions (hs : s.problems = []) {p : Schema.Package} (hp : p ∈ s.packages) {d : Definition}
    (hd : d ∈ p.definitions) : Grammar.isName d.name = true := by
  simp only [problems, List.append_eq_nil_iff, List.flatMap_eq_nil_iff] at hs
  have hchecked := hs.2 p hp
  simp only [Validation.checkPackage, List.append_eq_nil_iff, List.flatMap_eq_nil_iff] at hchecked
  have hdefinition := hchecked.2 d hd
  simp only [Validation.checkDefinition, List.append_eq_nil_iff, Validation.require_eq_nil] at hdefinition
  exact hdefinition.1

/-- A name in the index of an ontology built from a schema without problems is plain. -/
theorem plain_of_get?_index (hs : s.problems = []) (h : s.build = .ok o) {name : String} {entity : EntityId}
    (hentity : o.index.get? name = some entity) : Grammar.Plain name := by
  obtain ⟨p, hp, d, hd, rfl⟩ := exists_definition_of_get?_index h hentity
  have hpackage := Grammar.plain_of_isName (isName_of_problems_eq_nil hs p hp)
  exact (hpackage.append Grammar.plain_dot).append (Grammar.plain_of_isName (isName_of_mem_definitions hs hp hd))

/-- The names of classes and enumerations are plain. -/
theorem plain_entityName (hs : s.problems = []) (h : s.build = .ok o) (e : EntityId) :
    Grammar.Plain (o.entityName e) := by
  have ho := wired_of_build h
  cases e with
  | ofClass id =>
    cases hc : o.class? id with
    | none => simpa [Ontology.entityName, Ontology.className, hc] using Grammar.plain_empty
    | some c =>
      rw [Ontology.entityName, Ontology.Arena.className_eq hc]
      exact plain_of_get?_index hs h (ho.index_class.mpr ⟨c, hc, rfl⟩)
  | ofEnum id =>
    cases he : o.enum? id with
    | none => simpa [Ontology.entityName, he] using Grammar.plain_empty
    | some e =>
      have hname := plain_of_get?_index hs h (ho.index_enum.mpr ⟨e, he, rfl⟩)
      simpa [Ontology.entityName, he] using hname

/-- The names of packages have the characters of names. -/
theorem forall_isNameChar_packageName (hs : s.problems = []) (h : s.build = .ok o) (id : PackageId) :
    ∀ c ∈ (o.packageName id).toList, Grammar.isNameChar c = true := by
  unfold Ontology.packageName
  cases hp : o.package? id with
  | none => exact nofun
  | some p => exact Grammar.isNameChar_of_mem (isName_of_build hs h p (List.mem_of_getElem? hp))

/-- Edges to the types of other packages are split names of types. -/
theorem exists_entityName_of_mem_externalTypes (h : s.build = .ok o) {p : OntologyCompiler.Package}
    (hp : p ∈ o.packages) {e : ImportEdge} (he : e ∈ p.externalTypes) :
    ∃ entity parts, splitQualified (o.entityName entity) = some parts ∧ e = ⟨parts.1, parts.2⟩ := by
  rw [(computed_of_build h hp).2] at he
  obtain ⟨c, -, hc⟩ := List.mem_flatMap.mp (OrderedSet.mem_ofList.mp he)
  obtain ⟨property, -, hedge⟩ := List.mem_filterMap.mp hc
  obtain ⟨entity, -, hentity⟩ := Option.bind_eq_some_iff.mp hedge
  split at hentity
  next => cases hentity
  next =>
    obtain ⟨parts, hparts, rfl⟩ := Option.map_eq_some_iff.mp hentity
    exact ⟨entity, parts, hparts, rfl⟩

/-- What a class needs can be split. -/
theorem legible_of_needs (hs : s.problems = []) (h : s.build = .ok o) {id : ClassId} {e : ImportEdge}
    (hneeds : o.Needs id e) (htypes : ∀ p ∈ o.properties, Grammar.Plain p.type.name) : e.Legible := by
  rcases hneeds.2 with ⟨b, -, ⟨c, hc⟩, rfl⟩ | ⟨p, hp, hparts⟩
  · rw [Ontology.edge_eq hc]
    refine ⟨fun hdot => ?_, ?_⟩
    · exact absurd (forall_isNameChar_packageName hs h c.package _ hdot) (by decide)
    · have hrender : (o.edgeTo c).render = o.entityName (.ofClass b) := by
        rw [Ontology.entityName, Ontology.Arena.className_eq hc, (arena_of_build h).class_name hc]
        rfl
      exact hrender ▸ plain_entityName hs h _
  · have hmem : p ∈ o.properties := ((wired_of_build h).mem_ownProperties_iff.mp hp).1
    exact ImportEdge.legible_of_splitQualified (htypes p hmem) hparts

/-- The declaration of a property of a built ontology. -/
theorem exists_declaration_of_build (hs : s.problems = []) (h : s.build = .ok o) {p : Property}
    (hp : p ∈ o.properties) : ∃ d : PropertyDeclaration, p.name = d.name ∧ p.cardinality = d.cardinality ∧
      p.type.name = d.type.name ∧ p.type.alternates = d.type.alternates ∧
        (Grammar.isPropertyName d.name = true ∧ ∃ raw, d.type = .parse raw ∧ Validation.typeProblem? raw = none) ∧
          ∃ encoding, Cardinality.parse? encoding = some d.cardinality := by
  obtain ⟨ps, hps, rfl⟩ := build_eq_ok_iff.mp h
  obtain ⟨q, hq, c, hc, d, hd, hname, hcardinality, -, htype, halternates⟩ := exists_declaration_of_mem_resolve hp
  obtain ⟨_, _, _, _, _, hread, hclean⟩ := exists_entry_of_declarations hs hps hq hc hd
  exact ⟨d, hname, hcardinality, htype, halternates, Validation.proper_of_checkProperty hclean hread,
    Declaration.exists_encoding_of_readProperty hread⟩

/-- The names in the type of a property are plain. -/
theorem plain_of_mem_properties (hs : s.problems = []) (h : s.build = .ok o) {p : Property} (hp : p ∈ o.properties) :
    ∀ name ∈ p.type.name :: p.type.alternates, Grammar.Plain name := by
  obtain ⟨d, -, -, hname, halternates, ⟨-, raw, hraw, hclean⟩, -⟩ := exists_declaration_of_build hs h hp
  rw [hname, halternates, hraw]
  exact Validation.plain_of_typeProblem? hclean

/-- A schema without problems is built into what can be read back. -/
theorem legible_of_build (hs : s.problems = []) (h : s.build = .ok o) : o.Legible where
  toWired := wired_of_build h
  entities := plain_entityName hs h
  packages := fun id => Grammar.plain_of_forall (forall_isNameChar_packageName hs h id)
  imports := by
    intro c hc e he
    have hfound := (arena_of_build h).class?_of_mem hc
    have hor : e ∈ o.imports c.id ∨ e ∈ o.circularImports c.id := by
      simpa only [Ontology.imports, Ontology.circularImports, hfound, Option.map_some, Option.getD_some] using he
    obtain ⟨kept, hkept⟩ := exists_keptPairs_of_build h
    refine legible_of_needs hs h (hkept.mem_or_mem_iff.mp hor) fun p hp => ?_
    exact plain_of_mem_properties hs h hp _ List.mem_cons_self
  external := by
    intro p hp e he
    obtain ⟨entity, parts, hparts, rfl⟩ := exists_entityName_of_mem_externalTypes h hp he
    exact ImportEdge.legible_of_splitQualified (plain_entityName hs h entity) hparts
  property_names := by
    intro p hp
    obtain ⟨d, hname, -, -, -, hproper, -⟩ := exists_declaration_of_build hs h hp
    exact hname ▸ Grammar.plain_of_isPropertyName hproper.1
  type_names := fun p hp => plain_of_mem_properties hs h hp
  bound := fun p hp => boundIn_of_build h _ (List.mem_append_left _ (List.mem_map_of_mem hp))
  cardinalities := by
    intro p hp
    obtain ⟨d, -, hcardinality, -, -, -, encoding, hencoding⟩ := exists_declaration_of_build hs h hp
    rw [hcardinality, Cardinality.render_of_parse? hencoding, hencoding]

end Schema

end OntologyCompiler
