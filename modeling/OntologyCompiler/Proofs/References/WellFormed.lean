import OntologyCompiler.Proofs.References.Binding
import OntologyCompiler.Proofs.References.Wiring

/-!
# Well-formed ontologies

Every id stored in a built ontology leads somewhere: besides the ids that assembly writes, a base is a class,
the target of a type is what the index has under its name, and an associated package owns a type that was
found. A search by name therefore finds exactly the entity of that name.
-/

namespace OntologyCompiler

namespace Ontology

/-- A class or an enumeration is in range. -/
def Has (o : Ontology) : EntityId → Prop
  | .ofClass id => ∃ c, o.class? id = some c
  | .ofEnum id => ∃ e, o.enum? id = some e

/-- Everything is wired up, every id leads somewhere, and searches by name are exact. -/
structure WellFormed (o : Ontology) : Prop extends o.Wired where
  base : ∀ {id b}, o.base? id = some b → ∃ c, o.class? b = some c
  targets : ∀ t ∈ o.types, ∀ e, t.entity? = some e → o.Has e
  associated : ∀ {id p}, o.package? id = some p → ∀ q ∈ p.associatedPackages, ∃ x, o.package? q = some x
  index_range : ∀ {name e}, o.index.get? name = some e → o.Has e
  findClass_iff : ∀ {name c}, o.findClass name = some c ↔ c ∈ o.classes ∧ c.qualifiedName = name
  findEnum_iff : ∀ {name e}, o.findEnum name = some e ↔ e ∈ o.enums ∧ e.qualifiedName = name
  findProperty_iff : ∀ {id name p}, o.findProperty id name = some p ↔
    p ∈ o.properties ∧ p.owner = id ∧ p.name = name

variable {o : Ontology}

namespace Wired

/-- Names in the index lead to types. -/
theorem has_of_get?_index (ho : o.Wired) {name : String} {e : EntityId} (h : o.index.get? name = some e) :
    o.Has e := by
  cases e with
  | ofClass id =>
    obtain ⟨c, hc, -⟩ := ho.index_class.mp h
    exact ⟨c, hc⟩
  | ofEnum id =>
    obtain ⟨e, he, -⟩ := ho.index_enum.mp h
    exact ⟨e, he⟩

/-- A class is found exactly by its qualified name. -/
theorem findClass_eq_some_iff (ho : o.Wired) {name : String} {c : Class} :
    o.findClass name = some c ↔ c ∈ o.classes ∧ c.qualifiedName = name := by
  constructor
  · intro h
    unfold findClass lookup at h
    split at h
    next id hid =>
      obtain ⟨d, hd, hname⟩ := ho.index_class.mp hid
      obtain rfl := Option.some.inj (hd.symm.trans h)
      exact ⟨Arena.mem_of_class? hd, hname⟩
    next => cases h
  · intro h
    have hc := ho.class?_of_mem h.1
    have hid : o.index.get? name = some (.ofClass c.id) := ho.index_class.mpr ⟨c, hc, h.2⟩
    simp [findClass, lookup, hid, hc]

/-- An enumeration is found exactly by its qualified name. -/
theorem findEnum_eq_some_iff (ho : o.Wired) {name : String} {e : Enumeration} :
    o.findEnum name = some e ↔ e ∈ o.enums ∧ e.qualifiedName = name := by
  constructor
  · intro h
    unfold findEnum lookup at h
    split at h
    next id hid =>
      obtain ⟨f, hf, hname⟩ := ho.index_enum.mp hid
      obtain rfl := Option.some.inj (hf.symm.trans h)
      exact ⟨List.mem_of_getElem? hf, hname⟩
    next => cases h
  · intro h
    obtain ⟨i, hi⟩ := List.mem_iff_getElem?.mp h.1
    have he : o.enum? ⟨i⟩ = some e := hi
    have hid : o.index.get? name = some (.ofEnum ⟨i⟩) := ho.index_enum.mpr ⟨e, he, h.2⟩
    simp [findEnum, lookup, hid, he]

/-- The own properties of a class are those that it owns. -/
theorem mem_ownProperties_iff (ho : o.Wired) {id : ClassId} {p : Property} :
    p ∈ o.ownProperties id ↔ p ∈ o.properties ∧ p.owner = id := by
  constructor
  · intro h
    obtain ⟨c, hc⟩ := class?_of_mem_ownProperties h
    rw [ownProperties_eq hc] at h
    obtain ⟨pid, hpid, hp⟩ := List.mem_filterMap.mp h
    obtain ⟨q, hq, howner⟩ := (ho.class_properties hc pid).mp hpid
    obtain rfl := Option.some.inj (hq.symm.trans hp)
    exact ⟨List.mem_of_getElem? hq, howner⟩
  · intro h
    obtain ⟨hmem, rfl⟩ := h
    obtain ⟨i, hi⟩ := List.mem_iff_getElem?.mp hmem
    have hp : o.property? ⟨i⟩ = some p := hi
    obtain ⟨c, hc, -⟩ := ho.property_owner hp
    rw [ownProperties_eq hc]
    exact List.mem_filterMap.mpr ⟨⟨i⟩, (ho.class_properties hc _).mpr ⟨p, hp, rfl⟩, hp⟩

/-- A property is found exactly by its name in the class that owns it. -/
theorem findProperty_eq_some_iff (ho : o.Wired) {id : ClassId} {name : String} {p : Property} :
    o.findProperty id name = some p ↔ p ∈ o.properties ∧ p.owner = id ∧ p.name = name := by
  have happart : ((o.ownProperties id).map Property.name).Nodup := by
    refine (ho.properties_ascending id).imp fun hlt heq => ?_
    rw [heq, Std.compare_self] at hlt
    cases hlt
  rw [findProperty, find?_eq_some_iff_key happart fun _ _ => beq_iff_eq, ho.mem_ownProperties_iff, and_assoc]

end Wired

/-- A resolved ontology has the associations and external types that are computed for it. -/
theorem computed_of_mem_packages_resolve {p : Package} (hp : p ∈ o.resolve.packages) :
    p.associatedPackages = o.resolve.associationsOf p ∧ p.externalTypes = o.resolve.externalTypesOf p := by
  unfold resolve at hp ⊢
  generalize o.bindBases.cutInheritanceCycles.bindTypes.computeImports.breakCircularImports = b at hp ⊢
  change p ∈ (b.packages.map fun p => { p with associatedPackages := b.associationsOf p }).map fun p =>
    { p with externalTypes := b.computeAssociations.externalTypesOf p } at hp
  rw [List.map_map] at hp
  obtain ⟨q, -, rfl⟩ := List.mem_map.mp hp
  -- Both are computed from parts of the ontology that no later pass changes.
  exact ⟨rfl, rfl⟩

/-- The package that owns a type is in range. -/
theorem Wired.package?_of_entityPackage? (ho : o.Wired) {e : EntityId} {id : PackageId}
    (h : o.entityPackage? e = some id) : ∃ p, o.package? id = some p := by
  cases e with
  | ofClass c =>
    obtain ⟨x, hx, rfl⟩ := Option.map_eq_some_iff.mp h
    exact ho.class_package hx
  | ofEnum e =>
    obtain ⟨x, hx, rfl⟩ := Option.map_eq_some_iff.mp h
    exact ho.enum_package hx

/-- Associated packages own the types that they are needed for. -/
theorem exists_entityPackage?_of_mem_associationsOf {p : Package} {id : PackageId} (h : id ∈ o.associationsOf p) :
    ∃ e, o.entityPackage? e = some id := by
  obtain ⟨-, hmem⟩ := OrderedSet.mem_erase.mp h
  obtain ⟨c, -, hc⟩ := List.mem_flatMap.mp (OrderedSet.mem_ofList.mp hmem)
  rcases List.mem_append.mp hc with hbase | hrequired
  · obtain ⟨b, hb, rfl⟩ := Option.map_eq_some_iff.mp (Option.mem_toList.mp hbase)
    obtain ⟨base, -, hclass⟩ := Option.bind_eq_some_iff.mp hb
    exact ⟨.ofClass base, by simp [entityPackage?, hclass]⟩
  · obtain ⟨q, -, hq⟩ := List.mem_filterMap.mp hrequired
    obtain ⟨e, -, he⟩ := Option.bind_eq_some_iff.mp hq
    exact ⟨e, he⟩

end Ontology

namespace Schema

variable {s : Schema} {o : Ontology}

/-- In a built ontology the base of a class is a class. -/
theorem class?_of_base? (h : s.build = .ok o) {id b : ClassId} (hb : o.base? id = some b) :
    ∃ c, o.class? b = some c := by
  obtain ⟨b', hb', hbase, hfixed, hbases, -, -⟩ := exists_bound_of_build h
  rw [hbases] at hb
  have hdeclared := (Ontology.CutUpTo.cutInheritanceCycles hb' hbase).base?_eq_of_some hb
  rw [hb] at hdeclared
  obtain ⟨c, -, hc⟩ := Option.bind_eq_some_iff.mp hdeclared.symm
  obtain ⟨name, -, hname⟩ := Option.bind_eq_some_iff.mp hc
  obtain ⟨d, hd, rfl⟩ := Option.map_eq_some_iff.mp hname
  have hfound := hb'.class?_of_mem (List.mem_of_find?_eq_some hd)
  obtain ⟨base, decodings, imports, circular, hd'⟩ := Ontology.exists_class?_of_fixed_eq hfixed hfound
  exact ⟨_, hd'⟩

/-- In a built ontology packages have the associations and external types that are computed for it. -/
theorem computed_of_build (h : s.build = .ok o) {p : OntologyCompiler.Package} (hp : p ∈ o.packages) :
    p.associatedPackages = o.associationsOf p ∧ p.externalTypes = o.externalTypesOf p := by
  obtain ⟨ps, -, rfl⟩ := build_eq_ok_iff.mp h
  exact Ontology.computed_of_mem_packages_resolve hp

/-- In a built ontology an associated package is a package. -/
theorem package?_of_mem_associatedPackages (h : s.build = .ok o) {id q : PackageId}
    {p : OntologyCompiler.Package} (hp : o.package? id = some p) (hq : q ∈ p.associatedPackages) :
    ∃ x, o.package? q = some x := by
  rw [(computed_of_build h (List.mem_of_getElem? hp)).1] at hq
  obtain ⟨e, he⟩ := Ontology.exists_entityPackage?_of_mem_associationsOf hq
  exact (wired_of_build h).package?_of_entityPackage? he

/-- Every built ontology is well-formed. -/
theorem wellFormed_of_build (h : s.build = .ok o) : o.WellFormed where
  toWired := wired_of_build h
  base := class?_of_base? h
  targets := by
    intro t ht e he
    have hresolved : t.target = .resolved e := by
      unfold ValueType.entity? at he
      split at he
      next htarget => rw [htarget, Option.some.inj he]
      next => cases he
    exact (wired_of_build h).has_of_get?_index (((boundIn_of_build h t ht).resolved e).mp hresolved)
  associated := fun hp _ hq => package?_of_mem_associatedPackages h hp hq
  index_range := (wired_of_build h).has_of_get?_index
  findClass_iff := (wired_of_build h).findClass_eq_some_iff
  findEnum_iff := (wired_of_build h).findEnum_eq_some_iff
  findProperty_iff := (wired_of_build h).findProperty_eq_some_iff

/-- Two packages that need each other's types, with properties and members listed out of order. -/
def cove : Schema :=
  ⟨"cove", "1", "", [
    ⟨"pier", some "", some (.ofList [("boat", .object [("base", .text "reef.hull"), ("properties", .list [
      .list [.text "sail", .text "reef.cloth", .text "1.1"], .list [.text "crew", .text "int", .text "0.1"]])])]),
      none⟩,
    ⟨"reef", some "", some (.ofList [("hull", .object [("properties", .list [
      .list [.text "berth", .text "pier.boat", .text "1.1"]])])]),
      some (.ofList [("cloth", .object [("members", .list [.text "linen", .text "canvas"])])])⟩]⟩

/-- The ids of the schema lead where they should. -/
theorem cove_wellFormed :
    ∃ o, cove.build = .ok o ∧ o.WellFormed ∧ o.classes.map Class.properties = [[⟨1⟩, ⟨0⟩], [⟨2⟩]] ∧
      o.packages.map (fun p => p.associatedPackages.toList) = [[⟨1⟩], [⟨0⟩]] ∧
        o.types.map ValueType.entity? = [some (.ofEnum ⟨0⟩), none, some (.ofClass ⟨0⟩)] := by
  have hbuild : (cove.build.map fun o => (o.classes.map Class.properties,
      o.packages.map (fun p => p.associatedPackages.toList), o.types.map ValueType.entity?)) =
        .ok ([[⟨1⟩, ⟨0⟩], [⟨2⟩]], [[⟨1⟩], [⟨0⟩]], [some (.ofEnum ⟨0⟩), none, some (.ofClass ⟨0⟩)]) := by
    cbv
  obtain ⟨o, ho, heq⟩ := Declaration.map_eq_ok.mp hbuild
  simp only [Prod.mk.injEq] at heq
  exact ⟨o, ho, wellFormed_of_build ho, heq⟩

end Schema

end OntologyCompiler
