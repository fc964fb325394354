import OntologyCompiler.Ontology.Fingerprint
import OntologyCompiler.Proofs.Codec.Readers
import OntologyCompiler.Proofs.Fingerprint.Legible
import OntologyCompiler.Schema.Codec

/-!
# Nothing is lost in JSON

What a schema or an ontology is written as in JSON is read back as the same schema or ontology. Every type of record
has a lemma of its own, which uses those of its parts. An ontology in general would not be read back, as the least
number of occurrences of a property is a byte in what is read. It is at most one in what is built from a schema, since
only four encodings of cardinalities exist.
-/

namespace OntologyCompiler

open Json

/-- The position of a package is written as a number. -/
@[simp] theorem PackageId.ofJson_toJson (id : PackageId) : ofJson id.toJson = .ok id := by simp [ofJson, toJson]

/-- The position of a class is written as a number. -/
@[simp] theorem ClassId.ofJson_toJson (id : ClassId) : ofJson id.toJson = .ok id := by simp [ofJson, toJson]

/-- The position of an enumeration is written as a number. -/
@[simp] theorem EnumId.ofJson_toJson (id : EnumId) : ofJson id.toJson = .ok id := by simp [ofJson, toJson]

/-- The position of a property is written as a number. -/
@[simp] theorem PropertyId.ofJson_toJson (id : PropertyId) : ofJson id.toJson = .ok id := by simp [ofJson, toJson]

/-- An entity is a variant around its position. -/
@[simp] theorem EntityId.ofJson_toJson (entity : EntityId) : ofJson entity.toJson = .ok entity := by
  cases entity with
  | ofClass id => simp [ofJson, toJson]
  | ofEnum id => simp [ofJson, toJson]

/-- A scalar type is found by its keyword. -/
@[simp] theorem ScalarKind.ofJson_toJson (kind : ScalarKind) : ofJson kind.toJson = .ok kind := by
  simp [ofJson, toJson, ofKeyword?_keyword]

/-- A target is a variant around a scalar type, a name or an entity. -/
@[simp] theorem TypeTarget.ofJson_toJson (target : TypeTarget) : ofJson target.toJson = .ok target := by
  cases target with
  | scalar kind => simp [ofJson, toJson]
  | unresolved name => simp [ofJson, toJson]
  | resolved entity => simp [ofJson, toJson]

/-- A value type is read back with its alternates in order. -/
@[simp] theorem ValueType.ofJson_toJson (t : ValueType) : ofJson t.toJson = .ok t := by
  have halternates : asList asText (Json.ofList .text t.alternates) = .ok t.alternates := asList_ofList fun _ _ => rfl
  simp [ofJson, toJson, halternates]

/-- An upper bound is a bare variant. -/
@[simp] theorem MaxOccurs.ofJson_toJson (m : MaxOccurs) : ofJson m.toJson = .ok m := by
  cases m with
  | one => rfl
  | many => rfl

/-- A cardinality is read back if its least number of occurrences fits a byte. -/
theorem Cardinality.ofJson_toJson {c : Cardinality} (h : c.min < 256) : ofJson c.toJson = .ok c := by
  have hmin : minOfJson (.int c.min) = .ok c.min := by simp [minOfJson, h]
  simp [ofJson, toJson, hmin]

/-- An edge is read back. -/
@[simp] theorem ImportEdge.ofJson_toJson (e : ImportEdge) : ofJson e.toJson = .ok e := by simp [ofJson, toJson]

/-- A set of edges is written as the list of its members. -/
@[simp] theorem ImportEdge.setOfJson_setToJson (s : OrderedSet ImportEdge) : setOfJson (setToJson s) = .ok s := by
  rw [setOfJson, setToJson, asList_ofList fun e _ => e.ofJson_toJson, map_ok, OrderedSet.ofList_toList]

/-- A kind of constraint is a bare variant, or one around a free name. -/
@[simp] theorem ConstraintKind.ofJson_toJson (kind : ConstraintKind) : ofJson kind.toJson = .ok kind := by
  cases kind with
  | other name => simp [ofJson, toJson]
  | _ => rfl

/-- A constraint is read back, whatever value it has. -/
@[simp] theorem Constraint.ofJson_toJson (c : Constraint) : ofJson c.toJson = .ok c := by simp [ofJson, toJson]

/-- A decoding is read back, with an override or without. -/
@[simp] theorem Decoding.ofJson_toJson (d : Decoding) : ofJson d.toJson = .ok d := by
  have htype : asOption ValueType.ofJson (Json.ofOption ValueType.toJson d.overrideType) = .ok d.overrideType :=
    asOption_ofOption fun t _ => ⟨t.ofJson_toJson, nofun⟩
  simp [ofJson, toJson, htype]

/-- A property is read back if its cardinality is. -/
theorem Property.ofJson_toJson {p : Property} (h : p.cardinality.min < 256) : ofJson p.toJson = .ok p := by
  simp [ofJson, toJson, Cardinality.ofJson_toJson h]

/-- A class is read back with all that it declares and imports. -/
@[simp] theorem Class.ofJson_toJson (c : Class) : ofJson c.toJson = .ok c := by
  have hbase : asOption ClassId.ofJson (Json.ofOption ClassId.toJson c.base) = .ok c.base :=
    asOption_ofOption fun b _ => ⟨b.ofJson_toJson, nofun⟩
  have hdeclared : asOption asText (Json.ofOption .text c.declaredBase) = .ok c.declaredBase :=
    asOption_ofOption fun _ _ => ⟨rfl, nofun⟩
  have hproperties : asList PropertyId.ofJson (Json.ofList PropertyId.toJson c.properties) = .ok c.properties :=
    asList_ofList fun p _ => p.ofJson_toJson
  have hconstraints : asList Constraint.ofJson (Json.ofList Constraint.toJson c.constraints) = .ok c.constraints :=
    asList_ofList fun k _ => k.ofJson_toJson
  have hdecodings : asList Decoding.ofJson (Json.ofList Decoding.toJson c.decodings) = .ok c.decodings :=
    asList_ofList fun d _ => d.ofJson_toJson
  simp [ofJson, toJson, hbase, hdeclared, hproperties, hconstraints, hdecodings]

/-- A member of an enumeration is read back. -/
@[simp] theorem EnumMember.ofJson_toJson (m : EnumMember) : ofJson m.toJson = .ok m := by simp [ofJson, toJson]

/-- An enumeration is read back with its members in order. -/
@[simp] theorem Enumeration.ofJson_toJson (e : Enumeration) : ofJson e.toJson = .ok e := by
  have hmembers : asList EnumMember.ofJson (Json.ofList EnumMember.toJson e.members) = .ok e.members :=
    asList_ofList fun m _ => m.ofJson_toJson
  simp [ofJson, toJson, hmembers]

/-- A package is read back with its associations and external types. -/
@[simp] theorem Package.ofJson_toJson (p : Package) : ofJson p.toJson = .ok p := by
  have hclasses : asList ClassId.ofJson (Json.ofList ClassId.toJson p.classes) = .ok p.classes :=
    asList_ofList fun c _ => c.ofJson_toJson
  have henums : asList EnumId.ofJson (Json.ofList EnumId.toJson p.enums) = .ok p.enums :=
    asList_ofList fun e _ => e.ofJson_toJson
  have hassociated : asList PackageId.ofJson (Json.ofList PackageId.toJson p.associatedPackages.toList) =
      .ok p.associatedPackages.toList := asList_ofList fun q _ => q.ofJson_toJson
  simp [ofJson, toJson, hclasses, henums, hassociated, OrderedSet.ofList_toList]

/-- A code is found by its name. -/
@[simp] theorem DiagnosticCode.ofJson_toJson (code : DiagnosticCode) : ofJson code.toJson = .ok code := by
  have hname : ofName? code.name = some code := by cases code <;> decide
  simp [ofJson, toJson, hname]

/-- A diagnostic is read back. -/
@[simp] theorem Diagnostic.ofJson_toJson (d : Diagnostic) : ofJson d.toJson = .ok d := by simp [ofJson, toJson]

/-- Diagnostics are read back in order. -/
@[simp] theorem Diagnostics.ofJson_toJson (ds : Diagnostics) : ofJson (toJson ds) = .ok ds := by
  simp [ofJson, toJson, asList_ofList fun (d : Diagnostic) _ => d.ofJson_toJson]

/-- An ontology is read back if the least numbers of occurrences fit a byte. -/
theorem Ontology.ofJson_toJson {o : Ontology} (h : ∀ p ∈ o.properties, p.cardinality.min < 256) :
    ofJson o.toJson = .ok o := by
  have hpackages : asList Package.ofJson (Json.ofList Package.toJson o.packages) = .ok o.packages :=
    asList_ofList fun p _ => p.ofJson_toJson
  have hclasses : asList Class.ofJson (Json.ofList Class.toJson o.classes) = .ok o.classes :=
    asList_ofList fun c _ => c.ofJson_toJson
  have henums : asList Enumeration.ofJson (Json.ofList Enumeration.toJson o.enums) = .ok o.enums :=
    asList_ofList fun e _ => e.ofJson_toJson
  have hproperties : asList Property.ofJson (Json.ofList Property.toJson o.properties) = .ok o.properties :=
    asList_ofList fun p hp => Property.ofJson_toJson (h p hp)
  have hindex : asMap EntityId.ofJson (indexToJson o.index) = .ok o.index :=
    asMap_object fun e _ => e.2.ofJson_toJson
  simp [ofJson, toJson, hpackages, hclasses, henums, hproperties, hindex]

/-- What is asked of an ontology has the same answer after it is written and read back, since it is the same. -/
structure Ontology.Lossless (o : Ontology) : Prop where
  reread : Ontology.ofJson o.toJson = .ok o
  views : ∀ {α : Type} (view : Ontology → α), (Ontology.ofJson o.toJson).map view = .ok (view o)
  fingerprint : (Ontology.ofJson o.toJson).map Ontology.fingerprint = .ok o.fingerprint

/-- The least number of occurrences is no more than one in every encoding. -/
theorem Cardinality.min_le_one_of_parse? {encoding : String} {c : Cardinality} (h : parse? encoding = some c) :
    c.min ≤ 1 := by
  have hmem : encoding ∈ encodings := parse?_isSome_iff.mp (Option.isSome_of_mem h)
  simp only [encodings, List.mem_cons, List.not_mem_nil, or_false] at hmem
  rcases hmem with rfl | rfl | rfl | rfl <;> (obtain rfl := Option.some.inj h; decide)

namespace Schema

variable {s : Schema} {o : Ontology}

/-- A property of a built ontology has the cardinality of an encoding. -/
theorem exists_encoding_of_build (h : s.build = .ok o) {p : Property} (hp : p ∈ o.properties) :
    ∃ encoding, Cardinality.parse? encoding = some p.cardinality := by
  obtain ⟨ps, hps, rfl⟩ := build_eq_ok_iff.mp h
  obtain ⟨package, hpackage, c, hc, d, hd, -, hcardinality, -⟩ := exists_declaration_of_mem_resolve hp
  obtain ⟨_, -, _, -, -, body, -, hread⟩ := Declaration.exists_definition_of_readPackages hps hpackage hc
  simp only [Declaration.readClass, Declaration.bind_eq_ok, Declaration.pure_eq_ok] at hread
  obtain ⟨_, _, declared, hdeclared, _, _, _, _, _, _, _, _, rfl⟩ := hread
  obtain ⟨entry, -, hentry⟩ := (Declaration.readsDistinct_readProperties _ _).exists_entry hdeclared hd
  exact hcardinality ▸ Declaration.exists_encoding_of_readProperty hentry

/-- Definitions are read back as they are. -/
theorem definitionsOfJson_object (m : DefinitionMap) : definitionsOfJson (.object m.entries) = .ok m := by
  have hread := @asMap_object _ id (fun body => .ok body) m fun _ _ => rfl
  simp only [id_eq, List.map_id'] at hread
  exact hread

/-- A declared package is read back, and an absent map of definitions is not an empty one. -/
@[simp] theorem Package.ofJson_toJson (p : Package) : ofJson p.toJson = .ok p := by
  obtain ⟨name, doc, classes, enums⟩ := p
  have hdoc : asOption asText (optionalText doc) = .ok doc := by cases doc <;> rfl
  have hdefinitions (m : DefinitionMap) : asOption definitionsOfJson (.object m.entries) = .ok (some m) := by
    rw [asOption, definitionsOfJson_object, map_ok]
    exact nofun
  -- a map that is absent has no field, and one that is empty has
  cases classes <;> cases enums <;> simp [ofJson, toJson, definitionsField, hdoc, hdefinitions]

/-- A schema is read back. -/
theorem ofJson_toJson (s : Schema) : ofJson s.toJson = .ok s := by
  have hpackages : asList Package.ofJson (.list (s.packages.map Package.toJson)) = .ok s.packages :=
    asList_ofList fun p _ => p.ofJson_toJson
  simp [ofJson, toJson, hpackages]

/-- Schemas and what is built from them are the same after they are written and read back. -/
theorem written_losslessly (s : Schema) : ofJson s.toJson = .ok s ∧ ∀ o, s.build = .ok o → o.Lossless := by
  refine ⟨s.ofJson_toJson, fun o h => ?_⟩
  have hread : Ontology.ofJson o.toJson = .ok o := by
    apply Ontology.ofJson_toJson
    intro p hp
    obtain ⟨encoding, hencoding⟩ := exists_encoding_of_build h hp
    have hmin := Cardinality.min_le_one_of_parse? hencoding
    omega
  exact ⟨hread, fun view => by rw [hread, map_ok], by rw [hread, map_ok]⟩

/-- Two classes that need each other, with a free kind of constraint, a type for a decoding, further names in an
association, and a package without classes beside one with no enumerations. -/
def atoll : Schema :=
  ⟨"atoll", "1", "", [
    ⟨"reef", none, some (.ofList [
      ("coral", .object [("base", .text "reef.polyp"),
        ("constraints", .list [.list [.text "depth", .text "range", .object [("least", .int 1), ("most", .null)]]]),
        ("decodings", .list [.list [.text "depth", .text "child", .text "linked_to(reef.polyp, sea.wave)"]]),
        ("properties", .list [.list [.text "depth", .text "linked_to(sea.tide, reef.polyp)", .text "1.N"]])]),
      ("polyp", .object [("properties", .list [.list [.text "colony", .text "reef.coral", .text "0.N"],
        .list [.text "host", .text "sea.weed", .text "0.1"]])])]), some ∅⟩,
    ⟨"sea", some "", none, some (.ofList [("tide", .object [("members", .list [.text "flow", .text "ebb"])])])⟩]⟩

/-- The schema and what is built from it are read back, with all that stands in them. -/
theorem atoll_written_losslessly : ofJson atoll.toJson = .ok atoll ∧
    atoll.packages.map (fun p => (p.doc, p.classes.isSome, p.enums.map OrderedMap.keys)) =
      [(none, true, some []), (some "", false, some ["tide"])] ∧
    ∃ o, atoll.build = .ok o ∧ o.Lossless ∧
      o.classes.flatMap (fun c => c.constraints.map Constraint.kind) = [.other "range"] ∧
      o.properties.map (fun p => p.type.target) =
        [.resolved (.ofEnum ⟨0⟩), .resolved (.ofClass ⟨0⟩), .unresolved "sea.weed"] ∧
      o.classes.map (fun c => c.circularImports.toList) = [[⟨"reef", "polyp"⟩], []] ∧
      o.diagnostics.map Diagnostic.code = [.unresolvedType, .circularImport] := by
  have hbuild : (atoll.build.map fun o => (o.classes.flatMap (fun c => c.constraints.map Constraint.kind),
      o.properties.map (fun p => p.type.target), o.classes.map (fun c => c.circularImports.toList),
        o.diagnostics.map Diagnostic.code)) =
          .ok ([.other "range"], [.resolved (.ofEnum ⟨0⟩), .resolved (.ofClass ⟨0⟩), .unresolved "sea.weed"],
            [[⟨"reef", "polyp"⟩], []], [.unresolvedType, .circularImport]) := by
    cbv
  obtain ⟨hread, hlossless⟩ := written_losslessly atoll
  obtain ⟨o, ho, heq⟩ := Declaration.map_eq_ok.mp hbuild
  simp only [Prod.mk.injEq] at heq
  exact ⟨hread, by cbv, o, ho, hlossless o ho, heq⟩

end Schema

end OntologyCompiler
