import OntologyCompiler.Proofs.Distinct
import OntologyCompiler.Proofs.Imports.Broken
import OntologyCompiler.Proofs.Renaming.Declared

/-!
# The wiring of a built ontology

Beyond the shape of its packages and classes: enumerations and properties carry their positions as ids and
have owners, the lists by which owners hold them are exact, and what is listed by name is listed in strict
order. All of it is fixed when the declarations are assembled, where an id is the length of the list before
it, so every later pass may index without a check.
-/

namespace OntologyCompiler

/-- What every pass may assume about ids, owners and the lists that owners hold. -/
structure Ontology.Wired (o : Ontology) : Prop extends o.Arena where
  enum_id : ∀ {id e}, o.enum? id = some e → e.id = id
  enum_package : ∀ {id e}, o.enum? id = some e → ∃ p, o.package? e.package = some p
  members_ascending : ∀ {id e}, o.enum? id = some e → e.members.Pairwise fun m n => compare m.name n.name = .lt
  property_id : ∀ {id p}, o.property? id = some p → p.id = id
  property_owner : ∀ {id p}, o.property? id = some p → ∃ c, o.class? p.owner = some c ∧ c.package = p.package
  class_properties : ∀ {id c}, o.class? id = some c → ∀ pid, pid ∈ c.properties ↔
    ∃ p, o.property? pid = some p ∧ p.owner = id
  class_properties_nodup : ∀ {id c}, o.class? id = some c → c.properties.Nodup
  properties_ascending : ∀ id, ((o.ownProperties id).map Property.name).Pairwise fun m n => compare m n = .lt
  package_classes_nodup : ∀ {id p}, o.package? id = some p → p.classes.Nodup
  package_enums : ∀ {id p}, o.package? id = some p → ∀ eid, eid ∈ p.enums ↔
    ∃ e, o.enum? eid = some e ∧ e.package = id
  package_enums_nodup : ∀ {id p}, o.package? id = some p → p.enums.Nodup
  names_nodup : (o.classes.map Class.qualifiedName ++ o.enums.map Enumeration.qualifiedName).Nodup
  index_enum : ∀ {name id}, o.index.get? name = some (.ofEnum id) ↔
    ∃ e, o.enum? id = some e ∧ e.qualifiedName = name

namespace Ontology

variable {o o' : Ontology}

/-- The names of the own properties of a class are in the fixed part. -/
theorem map_name_ownProperties_of_fixed_eq (h : o'.fixed = o.fixed) (id : ClassId) :
    (o'.ownProperties id).map Property.name = (o.ownProperties id).map Property.name := by
  have hnames (o : Ontology) : (o.ownProperties id).map Property.name =
      ((o.class? id).map fun c => c.properties.filterMap fun pid => (o.property? pid).map Property.name).getD [] := by
    unfold ownProperties
    cases o.class? id <;> simp [List.map_filterMap]
  simp only [hnames, map_property?_of_fixed_eq (fun _ => rfl : ∀ p : Property, p.fixed.name = p.name) h]
  rw [map_class?_of_fixed_eq (fun _ => rfl) h]

/-- The wiring is in the fixed part. -/
theorem Wired.of_fixed_eq (ho : o.Wired) (h : o'.fixed = o.fixed) : o'.Wired where
  toArena := ho.toArena.of_fixed_eq h
  enum_id := by
    intro id e he
    exact ho.enum_id (enum?_of_fixed_eq h id ▸ he)
  enum_package := by
    intro id e he
    obtain ⟨p, hp⟩ := ho.enum_package (enum?_of_fixed_eq h id ▸ he)
    obtain ⟨associated, external, hq⟩ := exists_package?_of_fixed_eq h hp
    exact ⟨_, hq⟩
  members_ascending := by
    intro id e he
    exact ho.members_ascending (enum?_of_fixed_eq h id ▸ he)
  property_id := by
    intro id p hp
    obtain ⟨target, hq⟩ := exists_property?_of_fixed_eq h.symm hp
    exact (ho.property_id hq :)
  property_owner := by
    intro id p hp
    obtain ⟨target, hq⟩ := exists_property?_of_fixed_eq h.symm hp
    exact (exists_class?_iff_of_fixed_eq h fun _ => Iff.rfl).mpr (ho.property_owner hq :)
  class_properties := by
    intro id c hc pid
    obtain ⟨base, decodings, imports, circular, hd⟩ := exists_class?_of_fixed_eq h.symm hc
    apply (ho.class_properties hd pid).trans
    constructor
    · intro hall
      obtain ⟨p, hp, howner⟩ := hall
      obtain ⟨target, hq⟩ := exists_property?_of_fixed_eq h hp
      exact ⟨_, hq, howner⟩
    · intro hall
      obtain ⟨p, hp, howner⟩ := hall
      obtain ⟨target, hq⟩ := exists_property?_of_fixed_eq h.symm hp
      exact ⟨_, hq, howner⟩
  class_properties_nodup := by
    intro id c hc
    obtain ⟨base, decodings, imports, circular, hd⟩ := exists_class?_of_fixed_eq h.symm hc
    exact (ho.class_properties_nodup hd :)
  properties_ascending := by
    intro id
    rw [map_name_ownProperties_of_fixed_eq h]
    exact ho.properties_ascending id
  package_classes_nodup := by
    intro id p hp
    obtain ⟨associated, external, hq⟩ := exists_package?_of_fixed_eq h.symm hp
    exact (ho.package_classes_nodup hq :)
  package_enums := by
    intro id p hp eid
    obtain ⟨associated, external, hq⟩ := exists_package?_of_fixed_eq h.symm hp
    rw [enum?_of_fixed_eq h]
    exact ho.package_enums hq eid
  package_enums_nodup := by
    intro id p hp
    obtain ⟨associated, external, hq⟩ := exists_package?_of_fixed_eq h.symm hp
    exact (ho.package_enums_nodup hq :)
  names_nodup := by
    have hclasses (o : Ontology) : o.fixed.classes.map Class.qualifiedName = o.classes.map Class.qualifiedName := by
      simp [fixed, Function.comp_def, Class.fixed]
    have henums : o'.enums = o.enums := (congrArg Ontology.enums h :)
    rw [← hclasses, h, hclasses, henums]
    exact ho.names_nodup
  index_enum := by
    intro name id
    have hindex : o'.index = o.index := (congrArg Ontology.index h :)
    rw [hindex, ho.index_enum, enum?_of_fixed_eq h]

end Ontology

namespace Assembly

variable {ps : List PackageDeclaration} {i : Nat}

/-- The enumeration at a position has it as id. -/
theorem id_of_getElem?_enums {e : Enumeration} (h : (enums ps)[i]? = some e) : e.id = ⟨i⟩ := by
  simp only [enums, List.getElem?_map, List.getElem?_zipIdx, Option.map_eq_some_iff] at h
  obtain ⟨_, ⟨⟨package, d⟩, -, rfl⟩, rfl⟩ := h
  simp

/-- The property at a position comes from the declaration at that position. -/
theorem getElem?_properties {p : Property} (h : (properties ps)[i]? = some p) :
    p.id = ⟨i⟩ ∧ ∃ d, (propertyList ps)[i]? = some (p.owner, p.package, d) := by
  simp only [properties, List.getElem?_map, List.getElem?_zipIdx, Option.map_eq_some_iff] at h
  obtain ⟨_, ⟨⟨owner, package, d⟩, hd, rfl⟩, rfl⟩ := h
  exact ⟨by simp, d, hd⟩

/-- The class at a position lists its own properties. -/
theorem properties_of_getElem?_classes {c : Class} (h : (classes ps)[i]? = some c) :
    c.properties = ownIds (properties ps) ⟨i⟩ := by
  simp only [classes, List.getElem?_map, List.getElem?_zipIdx, Option.map_eq_some_iff] at h
  obtain ⟨_, ⟨⟨package, d⟩, -, rfl⟩, rfl⟩ := h
  simp

/-- The package at a position lists its own enumerations. -/
theorem enums_of_getElem?_packages {p : Package} (h : (packages ps)[i]? = some p) :
    p.enums = ((enums ps).filter fun e => e.package = ⟨i⟩).map Enumeration.id := by
  simp only [packages, List.getElem?_map, List.getElem?_zipIdx, Option.map_eq_some_iff] at h
  obtain ⟨_, ⟨d, -, rfl⟩, rfl⟩ := h
  simp

/-- A declared property is in a class of its package. -/
theorem exists_getElem?_classes_of_mem_propertyList {owner : ClassId} {package : PackageId} {d : PropertyDeclaration}
    (h : (owner, package, d) ∈ propertyList ps) : ∃ c, (classes ps)[owner.index]? = some c ∧ c.package = package := by
  obtain ⟨⟨⟨home, c⟩, j⟩, hc, hmem⟩ := List.mem_flatMap.mp h
  obtain ⟨_, -, heq⟩ := List.mem_map.mp hmem
  simp only [Prod.mk.injEq] at heq
  obtain ⟨rfl, rfl, -⟩ := heq
  have hlisted : (classList ps)[j]? = some (home, c) := List.mem_zipIdx_iff_getElem?.mp hc
  simp [classes, List.getElem?_zipIdx, hlisted]

/-- The ids of the own properties of a class are those of the properties that it owns. -/
theorem mem_ownIds_iff {all : List Property} {id : ClassId} {pid : PropertyId} :
    pid ∈ ownIds all id ↔ ∃ p ∈ all, p.owner = id ∧ p.id = pid := by
  simp only [ownIds, List.mem_map, perm_sortOn.mem_iff, List.mem_filter, decide_eq_true_eq, and_assoc]

end Assembly

namespace Declaration

/-- Members are read in strict order of their names. -/
theorem pairwise_members_of_readEnum {name qualifiedName : String} {body : List (String × Json)} {e : EnumDeclaration}
    (h : readEnum name qualifiedName body = .ok e) : e.members.Pairwise fun m n => compare m.name n.name = .lt := by
  simp only [readEnum, bind_eq_ok, pure_eq_ok] at h
  obtain ⟨_, _, ms, hms, rfl⟩ := h
  exact pairwise_lt_sortOn (readMembers_ok_iff.mp ⟨ms, hms, rfl⟩).2.2

/-- Declared enumerations have their members in strict order of their names. -/
theorem pairwise_members_of_readPackages {seen : List String} {ps : List Schema.Package}
    {qs : List PackageDeclaration} (h : readPackages seen ps = .ok qs) {q : PackageDeclaration} (hq : q ∈ qs)
    {e : EnumDeclaration} (he : e ∈ q.enums) : e.members.Pairwise fun m n => compare m.name n.name = .lt := by
  obtain ⟨p, -, hread⟩ := readsDistinct_readPackages.exists_entry h hq
  obtain ⟨ts, hts, rfl⟩ := map_eq_ok.mp hread
  obtain ⟨d, -, ht⟩ := (readsDistinct_readTypes p.name).exists_entry hts (Assembly.mem_enums_iff.mp he)
  simp only [readType, guard_eq_ok] at ht
  obtain ⟨-, ht⟩ := ht
  split at ht
  next =>
    split at ht
    next =>
      obtain ⟨c, -, heq⟩ := map_eq_ok.mp ht
      cases heq
    next =>
      obtain ⟨f, hf, heq⟩ := map_eq_ok.mp ht
      obtain rfl := TypeDeclaration.ofEnum.inj heq
      exact pairwise_members_of_readEnum hf
  next => exact absurd ht fail_ne_ok

end Declaration

namespace Ontology

variable {name version doc : String} {ps : List PackageDeclaration}

/-- An assembled enumeration is found at its id. -/
theorem enum?_assemble_of_mem {e : Enumeration} (hmem : e ∈ Assembly.enums ps) :
    (assemble name version doc ps).enum? e.id = some e := by
  obtain ⟨i, hi⟩ := List.mem_iff_getElem?.mp hmem
  rw [Assembly.id_of_getElem?_enums hi]
  exact hi

/-- An assembled property is found at its id. -/
theorem property?_assemble_of_mem {p : Property} (hmem : p ∈ Assembly.properties ps) :
    (assemble name version doc ps).property? p.id = some p := by
  obtain ⟨i, hi⟩ := List.mem_iff_getElem?.mp hmem
  rw [(Assembly.getElem?_properties hi).1]
  exact hi

/-- The own properties of an assembled class are those that it owns, by name. -/
theorem ownProperties_assemble {id : ClassId} {c : Class} (hc : (assemble name version doc ps).class? id = some c) :
    (assemble name version doc ps).ownProperties id =
      sortOn Property.name ((Assembly.properties ps).filter fun p => p.owner = id) := by
  have hfound : ∀ p ∈ sortOn Property.name ((Assembly.properties ps).filter fun p => p.owner = id),
      (assemble name version doc ps).property? p.id = some p := by
    intro p hp
    exact property?_assemble_of_mem (List.mem_filter.mp (perm_sortOn.mem_iff.mp hp)).1
  rw [ownProperties_eq hc, Assembly.properties_of_getElem?_classes hc, Assembly.ownIds, List.filterMap_map]
  exact (List.filterMap_congr hfound).trans List.filterMap_some

end Ontology

/-- Positions that items carry as ids are different. -/
theorem nodup_map_id {α ι : Type} {l : List α} {id : α → ι} (place : ι → Nat)
    (h : ∀ i a, l[i]? = some a → place (id a) = i) : (l.map id).Nodup := by
  have hplaces : (l.map id).map place = List.range l.length := by
    refine List.ext_getElem (by simp) fun i hi _ => ?_
    have hl : i < l.length := by simpa using hi
    simpa using h i l[i] (List.getElem?_eq_getElem hl)
  exact List.Nodup.of_map place (hplaces ▸ List.nodup_range)

namespace Ontology

variable {name version doc : String} {ps : List PackageDeclaration}

/-- Declarations with the shape of packages and classes are wired up when they are assembled. -/
theorem Arena.wired_assemble (ho : (assemble name version doc ps).Arena) (hproper : ∀ p ∈ ps, p.Proper)
    (hnames : ((Assembly.classes ps).map Class.qualifiedName ++
      (Assembly.enums ps).map Enumeration.qualifiedName).Nodup)
    (hmembers : ∀ p ∈ ps, ∀ e ∈ p.enums, e.members.Pairwise fun m n => compare m.name n.name = .lt) :
    (assemble name version doc ps).Wired where
  toArena := ho
  enum_id := Assembly.id_of_getElem?_enums
  enum_package := by
    intro id e he
    obtain ⟨d, hd, -⟩ := Assembly.exists_declaration_of_mem_enums (List.mem_of_getElem? he)
    obtain ⟨p, hp, -⟩ := Assembly.exists_getElem?_packages hd
    exact ⟨p, hp⟩
  members_ascending := by
    intro id e he
    obtain ⟨p, hp, d, hd, -, -, heq⟩ := Assembly.exists_declaration_of_mem_enums (List.mem_of_getElem? he)
    exact heq ▸ hmembers p (List.mem_of_getElem? hp) d hd
  property_id := fun hp => (Assembly.getElem?_properties hp).1
  property_owner := by
    intro id p hp
    obtain ⟨-, d, hd⟩ := Assembly.getElem?_properties hp
    exact Assembly.exists_getElem?_classes_of_mem_propertyList (List.mem_of_getElem? hd)
  class_properties := by
    intro id c hc pid
    rw [Assembly.properties_of_getElem?_classes hc, Assembly.mem_ownIds_iff]
    constructor
    · intro hall
      obtain ⟨p, hp, howner, rfl⟩ := hall
      exact ⟨p, property?_assemble_of_mem hp, howner⟩
    · intro hall
      obtain ⟨p, hp, howner⟩ := hall
      exact ⟨p, List.mem_of_getElem? hp, howner, (Assembly.getElem?_properties hp).1⟩
  class_properties_nodup := by
    intro id c hc
    have hids : ((Assembly.properties ps).map Property.id).Nodup :=
      nodup_map_id PropertyId.index fun i p hp => by rw [(Assembly.getElem?_properties hp).1]
    rw [Assembly.properties_of_getElem?_classes hc, Assembly.ownIds, (perm_sortOn.map _).nodup_iff]
    exact hids.sublist (List.filter_sublist.map _)
  properties_ascending := by
    intro id
    cases hc : (assemble name version doc ps).class? id with
    | none => simp [ownProperties, hc]
    | some c =>
      rw [ownProperties_assemble hc, List.pairwise_map]
      exact pairwise_lt_sortOn (Assembly.nodup_ownNames hproper id)
  package_classes_nodup := by
    intro id p hp
    have hids : ((Assembly.classes ps).map Class.id).Nodup :=
      nodup_map_id ClassId.index fun i c hc => by
        obtain ⟨d, -, hid, -⟩ := Assembly.getElem?_classes hc
        rw [hid]
    obtain ⟨d, -, -, -, hclasses⟩ := Assembly.getElem?_packages hp
    rw [hclasses]
    exact hids.sublist (List.filter_sublist.map _)
  package_enums := by
    intro id p hp eid
    rw [Assembly.enums_of_getElem?_packages hp]
    simp only [List.mem_map, List.mem_filter, decide_eq_true_eq]
    constructor
    · intro hall
      obtain ⟨e, ⟨he, hpackage⟩, rfl⟩ := hall
      exact ⟨e, enum?_assemble_of_mem he, hpackage⟩
    · intro hall
      obtain ⟨e, he, hpackage⟩ := hall
      exact ⟨e, ⟨List.mem_of_getElem? he, hpackage⟩, Assembly.id_of_getElem?_enums he⟩
  package_enums_nodup := by
    intro id p hp
    have hids : ((Assembly.enums ps).map Enumeration.id).Nodup :=
      nodup_map_id EnumId.index fun i e he => by rw [Assembly.id_of_getElem?_enums he]
    rw [Assembly.enums_of_getElem?_packages hp]
    exact hids.sublist (List.filter_sublist.map _)
  names_nodup := hnames
  index_enum := by
    intro key id
    change (Assembly.index ps).get? key = _ ↔ _
    rw [Assembly.get?_index hnames]
    simp only [EntityId.ofEnum.injEq, reduceCtorEq, and_false, exists_false, false_or]
    constructor
    · intro hall
      obtain ⟨e, he, hname, rfl⟩ := hall
      exact ⟨e, enum?_assemble_of_mem he, hname⟩
    · intro hall
      obtain ⟨e, he, hname⟩ := hall
      exact ⟨e, List.mem_of_getElem? he, hname, Assembly.id_of_getElem?_enums he⟩

end Ontology

namespace Schema

variable {s : Schema}

/-- The declarations of a schema are wired up when they are assembled. -/
theorem wired_of_declarations {ps : List PackageDeclaration} (h : s.declarations = .ok ps) :
    (Ontology.assemble s.name s.version s.doc ps).Wired := by
  obtain ⟨-, hqualified, -⟩ := Declaration.readPackages_names h
  apply (arena_of_declarations h).wired_assemble fun p hp => Declaration.proper_of_readPackages h hp
  · exact Assembly.nodup_qualifiedNames (hqualified ▸ (Declaration.readPackages_ok_iff.mp ⟨ps, h⟩).2.2)
  · exact fun p hp e he => Declaration.pairwise_members_of_readPackages h hp he

/-- A built ontology is wired up. -/
theorem wired_of_build {o : Ontology} (h : s.build = .ok o) : o.Wired := by
  obtain ⟨ps, hps, rfl⟩ := build_eq_ok_iff.mp h
  exact (wired_of_declarations hps).of_fixed_eq (Ontology.fixed_resolve _)

end Schema

end OntologyCompiler
