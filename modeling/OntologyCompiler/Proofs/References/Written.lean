import OntologyCompiler.Proofs.Generation.Drafts
import OntologyCompiler.Proofs.References.Dangling

/-!
# References as they are written

A schema refers to types in three places: in the base of a class, in the second field of a property and in the third
field of a decoding. What stands there is read in order, so each value has its counterpart in the built ontology,
and a strict run that is not refused has found every base and the primary name of every type. The further names of
an association are only kept: no pass looks them up, so a strict run promises nothing about them.
-/

namespace OntologyCompiler

/-- The body of the definition of a class. -/
def Definition.classBody? (d : Definition) : Option (List (String × Json)) :=
  match d.kind, d.body with
  | .ofClass, .object body => some body
  | _, _ => none

/-- What is declared of a property. -/
def Property.declared (p : Property) : PropertyDeclaration := ⟨p.name, p.type, p.cardinality, p.doc⟩

/-- All names in a type, the primary one first. -/
def ValueType.names (t : ValueType) : List String := t.name :: t.alternates

/-- The name is the keyword of a scalar or the qualified name of a type. -/
def Ontology.Knows (o : Ontology) (name : String) : Prop := (∃ kind, name = ScalarKind.keyword kind) ∨ o.Names name

/-- The value is the text of a type with names that are all known. -/
def Ontology.KnowsIn (o : Ontology) (names : ValueType → List String) (value : Json) : Prop :=
  ∃ raw, value = .text raw ∧ ∀ name ∈ names (.parse raw), o.Knows name

namespace Declaration

/-- The value at a position of an entry, null apart. -/
def writtenField? (position : ℕ) : Json → Option Json
  | .list fields => fields[position]?.filter (· ≠ .null)
  | _ => none

/-- The values at a position of the entries of a list field. -/
def writtenFields (key : String) (position : ℕ) (body : List (String × Json)) : List Json :=
  ((items? body key).getD []).filterMap (writtenField? position)

/-- The value is the text of a type. -/
def ReadAs (value : Json) (t : ValueType) : Prop := ∃ raw, value = .text raw ∧ t = .parse raw

/-- A property has the type that is written in its entry. -/
theorem readAs_of_readProperty {owner : String} {docStrings : List (String × Json)} {entry : Json}
    {p : PropertyDeclaration} (h : readProperty owner docStrings entry = .ok p) :
    Option.Rel ReadAs (writtenField? 1 entry) (some p.type) := by
  obtain ⟨raw, ⟨name, rest, rfl⟩, htype⟩ := exists_type_of_readProperty h
  exact .some ⟨raw, rfl, htype⟩

/-- A decoding has the type that is written in its entry, if one is. -/
theorem readAs_of_readDecoding {owner : String} {entry : Json} {d : Decoding} (h : readDecoding owner entry = .ok d) :
    Option.Rel ReadAs (writtenField? 2 entry) d.overrideType := by
  rcases readDecoding_ok_iff.mp ⟨d, h⟩ with ⟨property, rule, rfl | rfl | ⟨type, rfl⟩⟩
  · obtain rfl := Except.ok.inj h
    exact .none
  · obtain rfl := Except.ok.inj h
    exact .none
  · obtain rfl := Except.ok.inj h
    exact .some ⟨type, rfl, rfl⟩

/-- Entries are read in order. -/
theorem forall₂_of_readEach {α : Type} {read : Json → Declared α} {entries : List Json} {as : List α}
    (h : readEach read entries = .ok as) : List.Forall₂ (fun entry a => read entry = .ok a) entries as := by
  induction entries generalizing as with
  | nil =>
    obtain rfl := Except.ok.inj h
    exact .nil
  | cons entry rest ih =>
    simp only [readEach, bind_eq_ok, pure_eq_ok] at h
    obtain ⟨a, ha, bs, hbs, rfl⟩ := h
    exact .cons ha (ih hbs)

/-- A class is read from a body. -/
def HasBody (body : List (String × Json)) (c : ClassDeclaration) : Prop :=
  ∃ name qualifiedName, readClass name qualifiedName body = .ok c

/-- What a class refers to is written in its body, in the same order. -/
structure RefersAs (body : List (String × Json)) (c : ClassDeclaration) : Prop where
  base : c.base = (Json.field? "base" body).bind Json.text?
  properties : List.Forall₂ ReadAs (writtenFields "properties" 1 body) (c.properties.map PropertyDeclaration.type)
  decodings : List.Forall₂ ReadAs (writtenFields "decodings" 2 body) (c.decodings.filterMap Decoding.overrideType)

/-- A class refers to what is written in the body that it is read from. -/
theorem HasBody.refersAs {body : List (String × Json)} {c : ClassDeclaration} (h : HasBody body c) :
    RefersAs body c := by
  obtain ⟨name, qualifiedName, h⟩ := h
  simp only [readClass, bind_eq_ok, listField_eq_ok, pure_eq_ok] at h
  obtain ⟨entries, hentries, ps, hps, _, _, _, _, entries', hentries', ds, hds, rfl⟩ := h
  refine ⟨rfl, ?_, ?_⟩
  · rw [writtenFields, hentries, Option.getD_some, ← List.filterMap_eq_map]
    refine List.rel_filterMap ?_ ((readsDistinct_readProperties _ _).eq_ok_iff.mp hps).1
    exact fun _ _ hproperty => readAs_of_readProperty hproperty
  · rw [writtenFields, hentries', Option.getD_some]
    refine List.rel_filterMap ?_ (forall₂_of_readEach hds)
    exact fun _ _ hdecoding => readAs_of_readDecoding hdecoding

/-- A definition is read as a class exactly if it has the body of one. -/
theorem hasBody_of_readType {package : String} {d : Definition} {t : TypeDeclaration} :
    readType package [] d = .ok t →
      Option.Rel HasBody d.classBody? (match t with | .ofClass c => some c | .ofEnum _ => none) := by
  intro h
  simp only [readType, guard_eq_ok] at h
  obtain ⟨-, h⟩ := h
  split at h
  next body hbody =>
    split at h
    next hkind =>
      obtain ⟨c, hc, rfl⟩ := map_eq_ok.mp h
      simpa only [Definition.classBody?, hbody, hkind] using Option.Rel.some ⟨_, _, hc⟩
    next hkind =>
      obtain ⟨e, -, rfl⟩ := map_eq_ok.mp h
      simpa only [Definition.classBody?, hkind] using Option.Rel.none
  next => exact absurd h fail_ne_ok

end Declaration

namespace Assembly

variable {ps : List PackageDeclaration}

/-- The declared classes in order. -/
theorem map_snd_classList : (classList ps).map Prod.snd = ps.flatMap PackageDeclaration.classes := by
  have hdeclared := @map_flatMap_zipIdx ps _ _ PackageDeclaration.classes id
  simp only [List.map_id] at hdeclared
  exact hdeclared

/-- Assembled classes have the bases and the decodings of the declared ones. -/
theorem map_references_classes : (classes ps).map (fun c => (c.declaredBase, c.decodings)) =
    (ps.flatMap PackageDeclaration.classes).map fun c => (c.base, c.decodings) := by
  rw [← map_snd_classList, List.map_map]
  conv_rhs => rw [← List.zipIdx_map_fst 0 (classList ps), List.map_map]
  rw [classes, List.map_map]
  rfl

/-- Assembled properties are the declared ones in order. -/
theorem map_declared_properties : (properties ps).map Property.declared =
    (ps.flatMap PackageDeclaration.classes).flatMap ClassDeclaration.properties := by
  have hlist : (properties ps).map Property.declared = (propertyList ps).map fun entry => entry.2.2 := by
    conv_rhs => rw [← List.zipIdx_map_fst 0 (propertyList ps), List.map_map]
    rw [properties, List.map_map]
    rfl
  rw [hlist, propertyList, List.map_flatMap, ← map_snd_classList, List.flatMap_map]
  conv_rhs => rw [← List.zipIdx_map_fst 0 (classList ps), List.flatMap_map]
  simp only [List.map_map, Function.comp_def, List.map_id']

end Assembly

namespace Ontology

variable {o : Ontology}

/-- No base dangles exactly if every declared base is the qualified name of a class. -/
theorem danglingBases_eq_nil_iff : o.danglingBases = [] ↔
    ∀ base, some base ∈ o.classes.map Class.declaredBase → ∃ c ∈ o.classes, c.qualifiedName = base := by
  simp only [danglingBases, baseReferences, List.filter_eq_nil_iff, List.mem_filterMap, Option.map_eq_some_iff,
    forall_exists_index, and_imp, List.mem_map, decide_eq_true_eq]
  constructor
  · intro h base c hc hbase
    simpa using h _ c hc base hbase rfl
  · rintro h _ c hc base hbase rfl
    simpa using h base c hc hbase

/-- A name is unknown if it is neither a keyword nor the name of a type. -/
theorem not_knows_iff {name : String} : ¬ o.Knows name ↔ ScalarKind.ofKeyword? name = none ∧ ¬ o.Names name := by
  simp only [Knows, not_or, not_exists, Option.eq_none_iff_forall_ne_some, ne_eq, ScalarKind.ofKeyword?_eq_some_iff]

/-- The references to types are the names of all types. -/
theorem map_name_references :
    (o.typeReferences ++ o.overrideReferences).map Reference.name = o.types.map ValueType.name := by
  simp only [typeReferences, overrideReferences, types, List.map_append, List.map_map, List.map_flatMap,
    List.map_filterMap, List.filterMap_flatMap, Option.map_map, Function.comp_def]

/-- No type dangles exactly if the primary names of all types are known. -/
theorem danglingTypes_eq_nil_iff : o.danglingTypes = [] ↔ ∀ t ∈ o.types, o.Knows t.name := by
  have hnames : (∀ t ∈ o.types, o.Knows t.name) ↔
      ∀ r ∈ o.typeReferences ++ o.overrideReferences, o.Knows r.name := by
    rw [← List.forall_mem_map (P := o.Knows), ← map_name_references, List.forall_mem_map]
  rw [hnames, danglingTypes, List.filter_eq_nil_iff]
  simp only [decide_eq_true_eq, ← not_knows_iff, not_not]

end Ontology

namespace Schema

variable {s : Schema} {o : Ontology} {ps : List PackageDeclaration}

/-- The bodies of the definitions of classes in the order in which they are read. -/
def classBodies (s : Schema) : List (List (String × Json)) :=
  s.packages.flatMap fun p => p.definitions.filterMap Definition.classBody?

/-- The bases that are written, null apart. -/
def writtenBases (s : Schema) : List Json := (s.classBodies.filterMap (Json.field? "base")).filter (· ≠ .null)

/-- The types that are written in properties and in decodings. -/
def writtenTypes (s : Schema) : List Json :=
  s.classBodies.flatMap (Declaration.writtenFields "properties" 1) ++
    s.classBodies.flatMap (Declaration.writtenFields "decodings" 2)

/-- Classes are declared in the order of their bodies. -/
theorem forall₂_classBodies (h : s.declarations = .ok ps) :
    List.Forall₂ Declaration.HasBody s.classBodies (ps.flatMap PackageDeclaration.classes) := by
  have hpackages := (Declaration.readsDistinct_readPackages.eq_ok_iff.mp h).1
  refine List.rel_flatMap hpackages fun p q hq => ?_
  obtain ⟨ts, hts, rfl⟩ := Declaration.map_eq_ok.mp hq
  have htypes := ((Declaration.readsDistinct_readTypes p.name).eq_ok_iff.mp hts).1
  exact List.rel_filterMap (fun _ _ htype => Declaration.hasBody_of_readType htype) htypes

/-- Declared bases are the texts among the values that are written as bases. -/
theorem map_declaredBase_of_build (h : s.build = .ok o) : o.classes.map Class.declaredBase =
    s.classBodies.map fun body => (Json.field? "base" body).bind Json.text? := by
  obtain ⟨ps, hps, rfl⟩ := build_eq_ok_iff.mp h
  let a := Ontology.assemble s.name s.version s.doc ps
  have hfixed (o : Ontology) : o.classes.map Class.declaredBase = o.fixed.classes.map Class.declaredBase := by
    simp [Ontology.fixed, Class.fixed]
  have hassembled := congrArg (List.map Prod.fst) (@Assembly.map_references_classes ps)
  rw [List.map_map, List.map_map] at hassembled
  calc a.resolve.classes.map Class.declaredBase
      = a.classes.map Class.declaredBase := by rw [hfixed a.resolve, Ontology.fixed_resolve, ← hfixed]
    _ = (ps.flatMap PackageDeclaration.classes).map ClassDeclaration.base := hassembled
    _ = _ := map_eq_of_forall₂ (forall₂_classBodies hps) fun _ _ hread => hread.refersAs.base

/-- Types are built in the order in which they are written. -/
theorem forall₂_writtenTypes_of_build (h : s.build = .ok o) :
    List.Forall₂ (fun value t => ∃ raw, value = .text raw ∧ t = Ontology.bindType o.index (.parse raw))
      s.writtenTypes o.types := by
  obtain ⟨ps, hps, rfl⟩ := build_eq_ok_iff.mp h
  have hread := forall₂_classBodies hps
  have hproperties := congrArg (List.map PropertyDeclaration.type) (@Assembly.map_declared_properties ps)
  rw [List.map_map, List.map_flatMap] at hproperties
  have hdecodings := congrArg (List.flatMap fun entry => entry.2.filterMap Decoding.overrideType)
    (@Assembly.map_references_classes ps)
  rw [List.flatMap_map, List.flatMap_map] at hdecodings
  have htypes : (Ontology.assemble s.name s.version s.doc ps).types =
      ((ps.flatMap PackageDeclaration.classes).flatMap fun c => c.properties.map PropertyDeclaration.type) ++
        (ps.flatMap PackageDeclaration.classes).flatMap fun c => c.decodings.filterMap Decoding.overrideType := by
    rw [← hproperties, ← hdecodings, Ontology.types, List.filterMap_flatMap]
    rfl
  rw [index_resolve_assemble, Ontology.types_resolve, htypes, List.forall₂_map_right_iff]
  have hforall := List.rel_append
    (List.rel_flatMap hread fun _ _ hclass => hclass.refersAs.properties)
    (List.rel_flatMap hread fun _ _ hclass => hclass.refersAs.decodings)
  refine hforall.imp ?_
  rintro value _ ⟨raw, hvalue, rfl⟩
  exact ⟨raw, hvalue, rfl⟩

/-- In a schema without problems the bodies of classes have none. -/
theorem checkClass_of_mem_classBodies (hs : s.problems = []) {body : List (String × Json)}
    (hbody : body ∈ s.classBodies) : ∃ entity, Validation.checkClass entity body = [] := by
  obtain ⟨p, hp, hbody⟩ := List.mem_flatMap.mp hbody
  obtain ⟨d, hd, hclass⟩ := List.mem_filterMap.mp hbody
  obtain ⟨hkind, hobject⟩ : d.kind = .ofClass ∧ d.body = .object body := by
    unfold Definition.classBody? at hclass
    split at hclass
    next hkind hobject => exact ⟨hkind, Option.some.inj hclass ▸ hobject⟩
    next => cases hclass
  simp only [problems, List.append_eq_nil_iff, List.flatMap_eq_nil_iff] at hs
  have hpackage := hs.2 p hp
  simp only [Validation.checkPackage, List.append_eq_nil_iff, List.flatMap_eq_nil_iff] at hpackage
  have hdefinition := hpackage.2 d hd
  simp only [Validation.checkDefinition, hobject, hkind, List.append_eq_nil_iff] at hdefinition
  exact ⟨_, hdefinition.2.2⟩

/-- In a schema without problems the bases that are written are the declared ones. -/
theorem mem_writtenBases_iff (hs : s.problems = []) (h : s.build = .ok o) {value : Json} :
    value ∈ s.writtenBases ↔ ∃ base, some base ∈ o.classes.map Class.declaredBase ∧ value = .text base := by
  rw [map_declaredBase_of_build h]
  simp only [writtenBases, List.mem_filter, List.mem_filterMap, List.mem_map, decide_eq_true_eq]
  constructor
  · rintro ⟨⟨body, hbody, hfield⟩, hnull⟩
    obtain ⟨entity, hcheck⟩ := checkClass_of_mem_classBodies hs hbody
    simp only [Validation.checkClass, Validation.checkBase, hfield, List.append_eq_nil_iff] at hcheck
    have hbase := hcheck.1.1.1.1.1
    split at hbase
    next heq => cases heq
    next heq => exact absurd (Option.some.inj heq) hnull
    next base heq =>
      obtain rfl := Option.some.inj heq
      exact ⟨base, ⟨body, hbody, by rw [hfield]; rfl⟩, rfl⟩
    next => cases hbase
  · rintro ⟨base, ⟨body, hbody, hfield⟩, rfl⟩
    obtain ⟨value, hvalue, htext⟩ := Option.bind_eq_some_iff.mp hfield
    cases value with
    | text written =>
      obtain rfl := Option.some.inj htext
      exact ⟨⟨body, hbody, hvalue⟩, by simp⟩
    | null => cases htext
    | boolean _ => cases htext
    | number _ => cases htext
    | list _ => cases htext
    | object _ => cases htext

/-- Nothing is left unresolved exactly if every base that is written is the qualified name of a class and the primary
name of every type that is written is known. -/
theorem unresolvedCount_eq_zero_iff (hs : s.problems = []) (h : s.build = .ok o) :
    o.diagnostics.unresolvedCount = 0 ↔ (∀ value ∈ s.writtenBases, ∃ c ∈ o.classes, value = .text c.qualifiedName) ∧
      ∀ value ∈ s.writtenTypes, o.KnowsIn (fun t => [t.name]) value := by
  have hbases : o.danglingBases = [] ↔ ∀ value ∈ s.writtenBases, ∃ c ∈ o.classes, value = .text c.qualifiedName := by
    simp only [Ontology.danglingBases_eq_nil_iff, mem_writtenBases_iff hs h, forall_exists_index, and_imp]
    constructor
    · rintro hall _ base hbase rfl
      obtain ⟨c, hc, rfl⟩ := hall base hbase
      exact ⟨c, hc, rfl⟩
    · intro hall base hbase
      obtain ⟨c, hc, heq⟩ := hall _ base hbase rfl
      exact ⟨c, hc, (Json.text.inj heq).symm⟩
  have hwritten := forall₂_writtenTypes_of_build h
  have htypes : o.danglingTypes = [] ↔ ∀ value ∈ s.writtenTypes, o.KnowsIn (fun t => [t.name]) value := by
    rw [Ontology.danglingTypes_eq_nil_iff]
    simp only [Ontology.KnowsIn, List.mem_singleton, forall_eq]
    constructor
    · intro hall value hvalue
      obtain ⟨t, ht, raw, rfl, rfl⟩ := exists_of_forall₂ hwritten hvalue
      exact ⟨raw, rfl, ValueType.name_bindType ▸ hall _ ht⟩
    · intro hall t ht
      obtain ⟨value, hvalue, raw, rfl, rfl⟩ := exists_of_forall₂ hwritten.flip ht
      obtain ⟨raw', heq, hknown⟩ := hall _ hvalue
      obtain rfl := Json.text.inj heq
      exact ValueType.name_bindType.symm ▸ hknown
  rw [Ontology.unresolvedCount_eq_of_items (items_of_build h), Nat.add_eq_zero_iff, List.length_eq_zero_iff,
    List.length_eq_zero_iff, hbases, htypes]

/-- A strict run that does not fail for unresolved references has found every base and the primary name of every type
that is written. All names that are written are known exactly if, besides, the further names of associations are. -/
theorem written_known_of_strict {σ ω : Type} (hs : s.problems = []) (h : s.build = .ok o) {g : Generator σ}
    {options : GenerationOptions} {w : Writer ω} {state : σ} {sink : ω} (hstrict : options.strictness = .strict)
    (hrun : ∀ n, (g.execute o options w state sink).outcome ≠ .error (.unresolvedReferences n)) :
    (∀ value ∈ s.writtenBases, ∃ c ∈ o.classes, value = .text c.qualifiedName) ∧
      (∀ value ∈ s.writtenTypes, o.KnowsIn (fun t => [t.name]) value) ∧
        ((∀ value ∈ s.writtenTypes, o.KnowsIn ValueType.names value) ↔
          ∀ value ∈ s.writtenTypes, o.KnowsIn ValueType.alternates value) := by
  have hzero : o.diagnostics.unresolvedCount = 0 := by
    by_contra hcount
    apply hrun o.diagnostics.unresolvedCount
    rw [Generator.execute_of_unresolved hstrict (Nat.pos_of_ne_zero hcount)]
  obtain ⟨hbases, hprimary⟩ := (unresolvedCount_eq_zero_iff hs h).mp hzero
  refine ⟨hbases, hprimary, fun hall value hvalue => ?_, fun hfurther value hvalue => ?_⟩
  · obtain ⟨raw, rfl, hknown⟩ := hall value hvalue
    exact ⟨raw, rfl, fun name hname => hknown name (List.mem_cons_of_mem _ hname)⟩
  · obtain ⟨raw, rfl, hknown⟩ := hfurther value hvalue
    obtain ⟨raw', heq, hname⟩ := hprimary _ hvalue
    obtain rfl := Json.text.inj heq
    exact ⟨raw, rfl, List.forall_mem_cons.mpr ⟨hname _ List.mem_cons_self, hknown⟩⟩

/-- A class with an association to itself that has a further name, and with a decoding of another type. -/
def fjord (further : String) : Schema :=
  ⟨"fjord", "1", "", [⟨"inlet", some "Coast.", some (.ofList [("seal", .object [("base", .null),
    ("is_abstract", .boolean false),
    ("properties", .list [.list [.text "pup", .text ("linked_to(inlet.seal, " ++ further ++ ")"), .text "0.N"]]),
    ("decodings", .list [.list [.text "pup", .text "born", .text "date"]])])]), none⟩]⟩

/-- A strict run writes the files of the schema whether the further name is a class or nothing, and all names are
known in the first case only. -/
theorem fjord_written_known : ∃ o o', (fjord "inlet.seal").build = .ok o ∧ (fjord "inlet.otter").build = .ok o' ∧
    (∀ value ∈ (fjord "inlet.seal").writtenTypes, o.KnowsIn ValueType.names value) ∧
      (∀ value ∈ (fjord "inlet.otter").writtenTypes, o'.KnowsIn (fun t => [t.name]) value) ∧
        ¬ ∀ value ∈ (fjord "inlet.otter").writtenTypes, o'.KnowsIn ValueType.names value := by
  let options : GenerationOptions := ⟨"python", "out", .strict⟩
  have hrun (o : Ontology) (hzero : o.diagnostics.unresolvedCount = 0) (n : ℕ) :
      (Backend.dataModel.generator.execute o options .memory .empty []).outcome ≠
        .error (.unresolvedReferences n) := by
    rw [(Generator.execute_of_output_ok (fun _ => hzero) (Writer.writeAll_memory _ _)).1]
    exact nofun
  have hwritten (further : String) : (fjord further).writtenTypes =
      [.text ("linked_to(inlet.seal, " ++ further ++ ")"), .text "date"] := rfl
  have hs : (fjord "inlet.seal").problems = [] := by decide +kernel
  have hs' : (fjord "inlet.otter").problems = [] := by decide +kernel
  have hbuild (further : String) (h : further = "inlet.seal" ∨ further = "inlet.otter") :
      ((fjord further).build.map fun o =>
        (o.diagnostics.unresolvedCount, o.classes.map Class.qualifiedName, o.enums)) = .ok (0, ["inlet.seal"], []) := by
    rcases h with rfl | rfl <;> cbv
  obtain ⟨o, ho, hfound⟩ := Declaration.map_eq_ok.mp (hbuild _ (.inl rfl))
  obtain ⟨o', ho', hfound'⟩ := Declaration.map_eq_ok.mp (hbuild _ (.inr rfl))
  simp only [Prod.mk.injEq] at hfound hfound'
  obtain ⟨-, -, hall⟩ := written_known_of_strict hs ho rfl (hrun o hfound.1)
  obtain ⟨-, hprimary, hall'⟩ := written_known_of_strict hs' ho' rfl (hrun o' hfound'.1)
  have hseal (o : Ontology) (hclasses : o.classes.map Class.qualifiedName = ["inlet.seal"]) : o.Knows "inlet.seal" := by
    have hmem : "inlet.seal" ∈ o.classes.map Class.qualifiedName := hclasses ▸ List.mem_cons_self
    exact .inr (.inl (List.mem_map.mp hmem))
  refine ⟨o, o', ho, ho', hall.mpr ?_, hprimary, fun hknown => ?_⟩
  · rw [hwritten]
    refine List.forall_mem_cons.mpr ⟨⟨_, rfl, ?_⟩, List.forall_mem_cons.mpr ⟨⟨_, rfl, ?_⟩, List.forall_mem_nil _⟩⟩
    · have hnames : (ValueType.parse "linked_to(inlet.seal, inlet.seal)").alternates = ["inlet.seal"] := by decide
      exact hnames ▸ List.forall_mem_singleton.mpr (hseal o hfound.2.1)
    · have hnames : (ValueType.parse "date").alternates = [] := by decide
      exact hnames ▸ List.forall_mem_nil _
  · obtain ⟨raw, heq, hotter⟩ := hall'.mp hknown (.text "linked_to(inlet.seal, inlet.otter)") List.mem_cons_self
    obtain rfl := Json.text.inj heq
    have hnames : (ValueType.parse "linked_to(inlet.seal, inlet.otter)").alternates = ["inlet.otter"] := by decide
    rw [hnames, List.forall_mem_singleton] at hotter
    rcases hotter with ⟨kind, hkind⟩ | ⟨c, hc, hname⟩ | ⟨e, he, -⟩
    · cases kind <;> simp [ScalarKind.keyword] at hkind
    · have hmem := List.mem_map_of_mem (f := Class.qualifiedName) hc
      rw [hfound'.2.1, hname] at hmem
      simp at hmem
    · rw [hfound'.2.2] at he
      cases he

end Schema

end OntologyCompiler
