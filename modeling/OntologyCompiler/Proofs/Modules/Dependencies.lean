import OntologyCompiler.Proofs.Fingerprint.Reading
import OntologyCompiler.Proofs.Modules.Placement

/-!
# What packages depend on

Three passes find out what a package depends on. The imports of classes are read off names before cycles are broken, the
associations and the external types off what the names were bound to, and the imports of a module are put together from
all edges of its classes, wherever they were moved. Without unresolved references a name is bound to the type that it
splits into, so an edge is external exactly if a class has it in one of its two sets, and all three agree.
-/

namespace OntologyCompiler

/-- A package and a type name with a dot between them split into the two. -/
theorem splitQualified_append {package name : String} (hpackage : Grammar.isName package = true)
    (hname : Grammar.isName name = true) : splitQualified (package ++ "." ++ name) = some (package, name) := by
  have hfilled {s : String} (hs : Grammar.isName s = true) : s.toList.isEmpty = false := by
    cases hchars : s.toList with
    | nil => rw [Grammar.isName, hchars] at hs; cases hs
    | cons c cs => rfl
  have hdot {s : String} (hs : Grammar.isName s = true) : '.' ∉ s.toList := fun hmem =>
    absurd (Grammar.isNameChar_of_mem hs _ hmem) (by decide)
  have hchars : (package ++ "." ++ name).toList = package.toList ++ '.' :: name.toList := by simp
  have hwhole : (package.toList.isEmpty || name.toList.isEmpty || name.toList.contains '.') = false := by
    simp [hfilled hpackage, hfilled hname, hdot hname]
  rw [splitQualified, hchars, Text.cut?_append (hdot hpackage)]
  simp only [hwhole, Bool.false_eq_true, if_false, String.ofList_toList]

namespace Ontology

/-- The package owns the type that the edge names. -/
def Owns (o : Ontology) (id : PackageId) (e : ImportEdge) : Prop :=
  ∃ entity, o.lookup e.render = some entity ∧ o.entityPackage? entity = some id

/-- The package requires another one, which owns the base of one of its classes or the type of an external edge. -/
def Requires (o : Ontology) (p q : Package) : Prop :=
  q ≠ p ∧ ((∃ c ∈ o.classes, c.package = p.id ∧ o.basePackage? c = some q.id) ∨ ∃ e ∈ p.externalTypes, o.Owns q.id e)

/-- What dependencies rely on: packages list what is computed for them, and a property with a name that splits points
at the type of that name. -/
structure Resolved (o : Ontology) : Prop extends o.Named where
  associated : ∀ p ∈ o.packages, p.associatedPackages = o.associationsOf p
  external : ∀ p ∈ o.packages, p.externalTypes = o.externalTypesOf p
  bound : ∀ p ∈ o.properties, ∀ parts, p.type.qualifiedParts = some parts → ∃ entity, p.type.entity? = some entity
  owner : ∀ p ∈ o.properties, ∀ entity, p.type.entity? = some entity → o.lookup p.type.name = some entity ∧
    o.entityName entity = p.type.name ∧ ∃ q ∈ o.packages, o.entityPackage? entity = some q.id ∧
      ∃ typeName, p.type.qualifiedParts = some (q.name, typeName)

end Ontology

/-- What a data model module imports agrees with what is recorded for its package. -/
structure DataModel.Agrees (o : Ontology) (p : Package) (siblings : List String) : Prop where
  /-- Exactly what the package requires is imported. -/
  imported : ∀ x, x ∈ siblings ↔ ∃ q ∈ o.packages, o.Requires p q ∧ x = q.name ++ "_typeset"
  /-- Packages are told apart by their names. -/
  apart : ∀ q ∈ o.packages, ∀ r ∈ o.packages, q.name = r.name → q = r
  associated : ∀ id ∈ p.associatedPackages, ∃ q ∈ o.packages, q.id = id ∧ q.name ++ "_typeset" ∈ siblings
  other : p.name ++ "_typeset" ∉ siblings
  external : ∀ e ∈ p.externalTypes, ∃ c ∈ o.classes, c.package = p.id ∧ (e ∈ c.imports ∨ e ∈ c.circularImports)

namespace Ontology.Resolved

variable {o : Ontology} {p q : Package} {c : Class} {e : ImportEdge} {property : Property} {name : String}
  (ho : o.Resolved)

include ho

/-- Packages of one id are one package. -/
theorem eq_of_id_eq (hp : p ∈ o.packages) (hq : q ∈ o.packages) (h : p.id = q.id) : p = q :=
  Option.some.inj ((ho.arena.package?_of_mem hp).symm.trans (h ▸ ho.arena.package?_of_mem hq))

/-- A property of a package has an external edge if the name of its type splits and another package is in front. -/
theorem externalEdge?_eq_some_iff (hp : p ∈ o.packages) (hproperty : property ∈ o.properties) :
    o.externalEdge? p.id property = some e ↔
      property.type.qualifiedParts = some (e.package, e.typeName) ∧ e.package ≠ p.name := by
  have hedge : o.externalEdge? p.id property = some e ↔ ∃ entity, property.type.entity? = some entity ∧
      o.entityPackage? entity ≠ some p.id ∧ splitQualified (o.entityName entity) = some (e.package, e.typeName) := by
    simp only [externalEdge?, Option.bind_eq_some_iff, Option.ite_none_left_eq_some, Option.map_eq_some_iff]
    refine exists_congr fun entity => and_congr_right fun _ => and_congr_right fun _ => ?_
    cases e
    simp
  rw [hedge]
  constructor
  · rintro ⟨entity, hentity, hforeign, hsplit⟩
    obtain ⟨-, hname, q, hq, howner, typeName, hparts⟩ := ho.owner property hproperty entity hentity
    rw [hname] at hsplit
    refine ⟨hsplit, fun heq => hforeign ?_⟩
    have hpackage : q.name = e.package := congrArg Prod.fst (Option.some.inj (hparts.symm.trans hsplit))
    rw [howner, Package.eq_of_name_eq ho.names_nodup hq hp (hpackage.trans heq)]
  · rintro ⟨hsplit, hne⟩
    obtain ⟨entity, hentity⟩ := ho.bound property hproperty _ hsplit
    obtain ⟨-, hname, q, hq, howner, typeName, hparts⟩ := ho.owner property hproperty entity hentity
    have hpackage : q.name = e.package := congrArg Prod.fst (Option.some.inj (hparts.symm.trans hsplit))
    refine ⟨entity, hentity, fun heq => hne ?_, hname ▸ hsplit⟩
    rw [← hpackage, ho.eq_of_id_eq hq hp (Option.some.inj (howner.symm.trans heq))]

/-- The external types of a package are those of its properties, by their names, that are in other packages. -/
theorem mem_externalTypes_iff (hp : p ∈ o.packages) : e ∈ p.externalTypes ↔ e.package ≠ p.name ∧ ∃ c ∈ o.classes,
    c.package = p.id ∧ ∃ property ∈ o.ownProperties c.id,
      property.type.qualifiedParts = some (e.package, e.typeName) := by
  rw [ho.external p hp, externalTypesOf, OrderedSet.mem_ofList, List.mem_flatMap, and_comm]
  simp only [ho.arena.mem_filterMap_class?_iff hp, and_assoc, ← exists_and_right]
  refine exists_congr fun c => and_congr_right fun hc => and_congr_right fun _ => ?_
  rw [← ownProperties_eq (ho.arena.class?_of_mem hc), List.mem_filterMap]
  refine exists_congr fun property => and_congr_right fun hproperty => ?_
  exact ho.externalEdge?_eq_some_iff hp (Named.mem_properties hproperty)

/-- The type that an external edge names is owned by the package that the edge names, and by no other. -/
theorem exists_owner_of_mem_externalTypes (hp : p ∈ o.packages) (he : e ∈ p.externalTypes) :
    ∃ q ∈ o.packages, q.name = e.package ∧ ∀ id, o.Owns id e ↔ q.id = id := by
  obtain ⟨-, c, -, -, property, hproperty, hparts⟩ := (ho.mem_externalTypes_iff hp).mp he
  have hmem := Named.mem_properties hproperty
  obtain ⟨entity, hentity⟩ := ho.bound property hmem _ hparts
  obtain ⟨hlookup, -, q, hq, howner, typeName, hsplit⟩ := ho.owner property hmem entity hentity
  have hrender : property.type.name = e.render := eq_append_of_splitQualified hparts
  refine ⟨q, hq, congrArg Prod.fst (Option.some.inj (hsplit.symm.trans hparts)), fun id => ?_⟩
  rw [Owns, ← hrender, hlookup]
  simp [howner]

/-- A class of the package needs what an external edge names. -/
theorem exists_needs_of_mem_externalTypes (hp : p ∈ o.packages) (he : e ∈ p.externalTypes) :
    ∃ c ∈ o.classes, c.package = p.id ∧ o.Needs c.id e := by
  obtain ⟨hne, c, hc, hown, property, hproperty, hparts⟩ := (ho.mem_externalTypes_iff hp).mp he
  refine ⟨c, hc, hown, fun heq => hne ?_, Or.inr ⟨property, hproperty, hparts⟩⟩
  rw [heq, edge_eq (ho.arena.class?_of_mem hc), edgeTo, hown]
  exact DataModel.packageName_id ho.arena hp

/-- What a package requires is what its classes mention. -/
theorem requires_iff_mentions (hp : p ∈ o.packages) (hq : q ∈ o.packages) :
    o.Requires p q ↔ o.Mentions p q.name := by
  constructor
  · rintro ⟨hne, ⟨c, hc, hown, hbase⟩ | ⟨e, he, howns⟩⟩
    · refine ho.mentions_of_derives hp hq ⟨fun heq => hne ?_, c, hc, hown, hbase⟩
      exact (ho.eq_of_id_eq hp hq heq).symm
    · obtain ⟨r, hr, hname, howner⟩ := ho.exists_owner_of_mem_externalTypes hp he
      obtain rfl := ho.eq_of_id_eq hr hq ((howner q.id).mp howns)
      obtain ⟨c, hc, hown, hneeds⟩ := ho.exists_needs_of_mem_externalTypes hp he
      exact ho.mentions_iff.mpr ⟨hname ▸ ((ho.mem_externalTypes_iff hp).mp he).1, c, hc, hown, e, hneeds, hname.symm⟩
  · intro hmentions
    obtain ⟨hne, c, hc, hown, e, hneeds, hname⟩ := ho.mentions_iff.mp hmentions
    refine ⟨fun heq => hne (heq ▸ rfl), ?_⟩
    rcases hneeds.2 with ⟨id, hid, ⟨b, hb⟩, rfl⟩ | ⟨property, hproperty, hparts⟩
    · obtain ⟨r, hr⟩ := ho.arena.class_package hb
      have hmem : r ∈ o.packages := List.mem_of_getElem? hr
      have hrname : (o.edge id).package = r.name := by simp [edge_eq hb, edgeTo, packageName, hr]
      obtain rfl := Package.eq_of_name_eq ho.names_nodup hmem hq (hrname.symm.trans hname)
      rw [base?, ho.arena.class?_of_mem hc, Option.bind_some] at hid
      exact Or.inl ⟨c, hc, hown, by simp [basePackage?, hid, hb, ho.arena.package_id hr]⟩
    · have he : e ∈ p.externalTypes :=
        (ho.mem_externalTypes_iff hp).mpr ⟨hname ▸ hne, c, hc, hown, property, hproperty, hparts⟩
      obtain ⟨r, hr, hrname, howner⟩ := ho.exists_owner_of_mem_externalTypes hp he
      obtain rfl := Package.eq_of_name_eq ho.names_nodup hr hq (hrname.trans hname)
      exact Or.inr ⟨e, he, (howner r.id).mpr rfl⟩

/-- What is mentioned is a package. -/
theorem exists_package_of_mentions (h : o.Mentions p name) : ∃ q ∈ o.packages, q.name = name := by
  obtain ⟨-, c, -, -, e, hneeds, rfl⟩ := ho.mentions_iff.mp h
  rcases ho.exists_package_or_property hneeds with hpackage | ⟨property, hproperty, hparts⟩
  · exact hpackage
  · have hmem := Named.mem_properties hproperty
    obtain ⟨entity, hentity⟩ := ho.bound property hmem _ hparts
    obtain ⟨-, -, q, hq, -, typeName, hsplit⟩ := ho.owner property hmem entity hentity
    exact ⟨q, hq, congrArg Prod.fst (Option.some.inj (hsplit.symm.trans hparts))⟩

/-- An associated package is one that the package requires. -/
theorem exists_requires_of_mem_associatedPackages (hp : p ∈ o.packages) {id : PackageId}
    (hid : id ∈ p.associatedPackages) : ∃ q ∈ o.packages, q.id = id ∧ o.Requires p q := by
  rw [ho.associated p hp] at hid
  obtain ⟨hne, hmem⟩ := OrderedSet.mem_erase.mp hid
  obtain ⟨c, hc, hneeded⟩ := List.mem_flatMap.mp (OrderedSet.mem_ofList.mp hmem)
  obtain ⟨hclass, hown⟩ := (ho.arena.mem_filterMap_class?_iff hp).mp hc
  rcases List.mem_append.mp hneeded with hbase | hrequired
  · have hbase : o.basePackage? c = some id := Option.mem_toList.mp hbase
    obtain ⟨q, hq, rfl⟩ := DataModel.exists_package_of_derives ho.arena ⟨Ne.symm hne, c, hclass, hown, hbase⟩
    exact ⟨q, hq, rfl, fun heq => hne (heq ▸ rfl), Or.inl ⟨c, hclass, hown, hbase⟩⟩
  · obtain ⟨property, hproperty, htype⟩ := List.mem_filterMap.mp hrequired
    obtain ⟨entity, hentity, howner⟩ := Option.bind_eq_some_iff.mp htype
    have hlisted : property ∈ o.ownProperties c.id := by
      rw [ownProperties_eq (ho.arena.class?_of_mem hclass)]
      exact (List.mem_filter.mp hproperty).1
    obtain ⟨-, -, q, hq, hqowner, typeName, hparts⟩ :=
      ho.owner property (Named.mem_properties hlisted) entity hentity
    obtain rfl : q.id = id := Option.some.inj (hqowner.symm.trans howner)
    have hother : q ≠ p := fun heq => hne (heq ▸ rfl)
    have hqname : q.name ≠ p.name := fun heq => hother (Package.eq_of_name_eq ho.names_nodup hq hp heq)
    have he : (⟨q.name, typeName⟩ : ImportEdge) ∈ p.externalTypes :=
      (ho.mem_externalTypes_iff hp).mpr ⟨hqname, c, hclass, hown, property, hlisted, hparts⟩
    obtain ⟨r, hr, hrname, howns⟩ := ho.exists_owner_of_mem_externalTypes hp he
    obtain rfl := Package.eq_of_name_eq ho.names_nodup hr hq hrname
    exact ⟨r, hr, rfl, hother, Or.inr ⟨_, he, (howns r.id).mpr rfl⟩⟩

/-- What the module of a package imports agrees with what is recorded for the package. -/
theorem agrees_page (hp : p ∈ o.packages) :
    DataModel.Agrees o p ((Backend.dataModel.page o p).top ++ (Backend.dataModel.page o p).tail) := by
  have hplaced := ho.placed_page hp
  have himported (x : String) : x ∈ (Backend.dataModel.page o p).top ++ (Backend.dataModel.page o p).tail ↔
      ∃ q ∈ o.packages, o.Requires p q ∧ x = q.name ++ "_typeset" := by
    constructor
    · intro hx
      obtain ⟨name, hmentions, rfl⟩ := hplaced.mentioned x hx
      obtain ⟨q, hq, rfl⟩ := ho.exists_package_of_mentions hmentions
      exact ⟨q, hq, (ho.requires_iff_mentions hp hq).mpr hmentions, rfl⟩
    · rintro ⟨q, hq, hrequires, rfl⟩
      have honce := hplaced.once q.name ((ho.requires_iff_mentions hp hq).mp hrequires)
      exact List.count_pos_iff.mp (honce ▸ Nat.one_pos)
  have hapart : ∀ q ∈ o.packages, ∀ r ∈ o.packages, q.name = r.name → q = r :=
    fun q hq r hr => Package.eq_of_name_eq ho.names_nodup hq hr
  constructor
  case imported => exact himported
  case apart => exact hapart
  case associated =>
    intro id hid
    obtain ⟨q, hq, hqid, hrequires⟩ := ho.exists_requires_of_mem_associatedPackages hp hid
    exact ⟨q, hq, hqid, (himported _).mpr ⟨q, hq, hrequires, rfl⟩⟩
  case other =>
    intro hmem
    obtain ⟨q, hq, hrequires, heq⟩ := (himported _).mp hmem
    have hname : q.name = p.name := String.toList_injective
      (List.append_cancel_right (by simpa only [String.toList_append] using congrArg String.toList heq.symm))
    exact hrequires.1 (hapart q hq p hp hname)
  case external =>
    intro e he
    obtain ⟨c, hc, hown, hneeds⟩ := ho.exists_needs_of_mem_externalTypes hp he
    exact ⟨c, hc, hown, (ho.needs_iff hc).mp hneeds⟩

end Ontology.Resolved

namespace Schema

variable {s : Schema} {o : Ontology}

/-- A name in the index of an ontology built from a valid schema splits into the name of the package that owns the type
and the name of the type. -/
theorem exists_owner_of_get?_index (hs : s.problems = []) (h : s.build = .ok o)
    (hnames : (s.packages.map Schema.Package.name).Nodup) {name : String} {entity : EntityId}
    (hentity : o.index.get? name = some entity) : ∃ q ∈ o.packages, o.entityPackage? entity = some q.id ∧
      ∃ typeName, splitQualified name = some (q.name, typeName) := by
  have hw := wired_of_build h
  obtain ⟨p, hp, d, hd, rfl⟩ := exists_definition_of_get?_index h hentity
  have hsplit := splitQualified_append (isName_of_problems_eq_nil hs p hp) (isName_of_mem_definitions hs hp hd)
  have howner {id : PackageId} {q : OntologyCompiler.Package} {typeName : String} (hq : o.package? id = some q)
      (howner : o.entityPackage? entity = some id)
      (hname : p.name ++ "." ++ d.name = o.packageName id ++ "." ++ typeName) :
      ∃ q ∈ o.packages, o.entityPackage? entity = some q.id ∧
        ∃ typeName, splitQualified (p.name ++ "." ++ d.name) = some (q.name, typeName) := by
    have hmem : q ∈ o.packages := List.mem_of_getElem? hq
    have hpackage : o.packageName id = q.name := by rw [Ontology.packageName, hq]; rfl
    rw [hname, hpackage] at hsplit
    have hfirst : p.name = q.name := fst_of_splitQualified (isName_of_build hs h q hmem) hsplit
    refine ⟨q, hmem, by rw [howner, hw.package_id hq], d.name, ?_⟩
    rw [hname, hpackage, hsplit, hfirst]
  cases entity with
  | ofClass id =>
    obtain ⟨c, hc, hname⟩ := hw.index_class.mp hentity
    obtain ⟨q, hq⟩ := hw.class_package hc
    exact howner hq (by rw [Ontology.entityPackage?, hc]; rfl) (hname.symm.trans (hw.class_name hc))
  | ofEnum id =>
    obtain ⟨e, he, hname⟩ := hw.index_enum.mp hentity
    obtain ⟨q, hq⟩ := hw.enum_package he
    have hqualified := (distinct_of_build h hnames).enum_name e (List.mem_of_getElem? he)
    exact howner hq (by rw [Ontology.entityPackage?, he]; rfl) (hname.symm.trans hqualified)

/-- An ontology built from a valid schema without unresolved references has what dependencies rely on, if its package
names are different. -/
theorem resolved_of_build (hs : s.problems = []) (h : s.build = .ok o)
    (hresolved : o.diagnostics.unresolvedCount = 0) (hnames : (s.packages.map Schema.Package.name).Nodup) :
    o.Resolved where
  toNamed := named_of_build hs h hnames
  associated := fun p hp => (computed_of_build h hp).1
  external := fun p hp => (computed_of_build h hp).2
  bound := by
    intro p hp parts hparts
    obtain ⟨entity, hentity⟩ := exists_entity_of_build h hresolved hp hparts
    exact ⟨entity, ValueType.entity?_eq_some_iff.mpr (target_eq_of_build h hp hparts hentity)⟩
  owner := by
    intro p hp entity hentity
    have hbound := boundIn_of_build h p.type (List.mem_append_left _ (List.mem_map_of_mem hp))
    have hindex := (hbound.resolved entity).mp (ValueType.entity?_eq_some_iff.mp hentity)
    exact ⟨hindex, (wired_of_build h).entityName_of_get?_index hindex, exists_owner_of_get?_index hs h hnames hindex⟩

/-- A run of the data model backend over an ontology built without unresolved references from a valid schema with
different package names writes a page for each package, and what that imports agrees with what is recorded for it. -/
theorem dependencies_agree_of_build (hs : s.problems = []) (h : s.build = .ok o)
    (hresolved : o.diagnostics.unresolvedCount = 0) (hnames : (s.packages.map Schema.Package.name).Nodup) :
    Backend.dataModel.Writes o False ((Backend.dataModel.pages o).map (Backend.dataModel.file o)) ∧
      ((Backend.dataModel.pages o).map Page.package).Perm o.packages ∧
        ∀ g ∈ Backend.dataModel.pages o, DataModel.Agrees o g.package (g.top ++ g.tail) := by
  have ho := resolved_of_build hs h hresolved hnames
  refine ⟨writes_data_model_pages (wired_of_build h) ho.names_nodup, (complete_pages_of_build h hnames).packages,
    fun g hg => ?_⟩
  obtain ⟨p, hp, -, rfl⟩ := Backend.exists_of_mem_pages hg
  exact ho.agrees_page hp

/-- The packages of the sluice with what is recorded for them: a mill with two external types, and a pond that is
associated with the mill. -/
theorem sluice_dependencies_agree : ∃ o, sluice.build = .ok o ∧ o.diagnostics.unresolvedCount = 0 ∧
    Backend.dataModel.Writes o False ((Backend.dataModel.pages o).map (Backend.dataModel.file o)) ∧
      (∀ g ∈ Backend.dataModel.pages o, DataModel.Agrees o g.package (g.top ++ g.tail)) ∧
        o.packages.map (fun p => (p.name, p.associatedPackages.toList, p.externalTypes.toList)) =
          [("dam", [], []), ("mill", [], [⟨"dam", "arch"⟩, ⟨"pond", "trout"⟩]), ("pond", [⟨1⟩], [])] := by
  have hs : sluice.problems = [] := by decide +kernel
  have hfacts : sluice.build.map (fun o => (o.diagnostics.unresolvedCount,
      o.packages.map fun p => (p.name, p.associatedPackages.toList, p.externalTypes.toList))) =
        .ok (0, [("dam", [], []), ("mill", [], [⟨"dam", "arch"⟩, ⟨"pond", "trout"⟩]), ("pond", [⟨1⟩], [])]) := by
    cbv
  obtain ⟨o, ho, heq⟩ := Declaration.map_eq_ok.mp hfacts
  obtain ⟨hresolved, hpackages⟩ := Prod.mk.inj heq
  obtain ⟨hwrites, -, hagrees⟩ := dependencies_agree_of_build hs ho hresolved (by decide)
  exact ⟨o, ho, hresolved, hwrites, hagrees, hpackages⟩

end Schema

end OntologyCompiler
