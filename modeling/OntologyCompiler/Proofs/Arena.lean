import Mathlib.Data.List.Nodup
import Mathlib.Data.List.Perm.Basic
import OntologyCompiler.Proofs.Declarations.Bodies
import OntologyCompiler.Proofs.Frame

/-!
# The shape of a built ontology

Classes and packages carry their positions as ids, packages list exactly their own classes, qualified
names put the name of the package in front, no two classes share one, and the index leads from the
qualified name of a class to its id and to a class from nothing else. Assembly establishes this for
the declarations of a schema; it is about the fixed part of an ontology, so resolution keeps it.
-/

namespace OntologyCompiler

/-- What every pass may assume about positions, owners, names and the index of an ontology. -/
structure Ontology.Arena (o : Ontology) : Prop where
  class_id : ∀ {id c}, o.class? id = some c → c.id = id
  class_package : ∀ {id c}, o.class? id = some c → ∃ p, o.package? c.package = some p
  class_name : ∀ {id c}, o.class? id = some c → c.qualifiedName = o.packageName c.package ++ "." ++ c.name
  class_names_nodup : (o.classes.map Class.qualifiedName).Nodup
  package_id : ∀ {id p}, o.package? id = some p → p.id = id
  package_classes : ∀ {id p}, o.package? id = some p → ∀ cid, cid ∈ p.classes ↔
    ∃ c, o.class? cid = some c ∧ c.package = id
  index_class : ∀ {name id}, o.index.get? name = some (.ofClass id) ↔
    ∃ c, o.class? id = some c ∧ c.qualifiedName = name

namespace Ontology.Arena

variable {o o' : Ontology}

/-- The shape is in the fixed part. -/
theorem of_fixed_eq (ho : o.Arena) (h : o'.fixed = o.fixed) : o'.Arena where
  class_id := by
    intro id c hc
    obtain ⟨base, decodings, imports, circular, hd⟩ := exists_class?_of_fixed_eq h.symm hc
    exact (ho.class_id hd :)
  class_package := by
    intro id c hc
    obtain ⟨base, decodings, imports, circular, hd⟩ := exists_class?_of_fixed_eq h.symm hc
    obtain ⟨p, hp⟩ := ho.class_package hd
    obtain ⟨associated, external, hq⟩ := exists_package?_of_fixed_eq h hp
    exact ⟨_, hq⟩
  class_name := by
    intro id c hc
    obtain ⟨base, decodings, imports, circular, hd⟩ := exists_class?_of_fixed_eq h.symm hc
    rw [packageName_of_fixed_eq h]
    exact (ho.class_name hd :)
  class_names_nodup := by
    have hnames (o : Ontology) : o.fixed.classes.map Class.qualifiedName = o.classes.map Class.qualifiedName := by
      simp [fixed, Function.comp_def, Class.fixed]
    rw [← hnames, h, hnames]
    exact ho.class_names_nodup
  package_id := by
    intro id p hp
    obtain ⟨associated, external, hq⟩ := exists_package?_of_fixed_eq h.symm hp
    exact (ho.package_id hq :)
  package_classes := by
    intro id p hp cid
    obtain ⟨associated, external, hq⟩ := exists_package?_of_fixed_eq h.symm hp
    exact (ho.package_classes hq cid).trans (exists_class?_iff_of_fixed_eq h.symm fun _ => Iff.rfl)
  index_class := by
    intro name id
    have hindex : o'.index = o.index := (congrArg Ontology.index h :)
    rw [hindex, ho.index_class]
    exact exists_class?_iff_of_fixed_eq h.symm fun _ => Iff.rfl

/-- A listed class is found at its id. -/
theorem class?_of_mem (ho : o.Arena) {c : Class} (hc : c ∈ o.classes) : o.class? c.id = some c := by
  obtain ⟨i, hi⟩ := List.mem_iff_getElem?.mp hc
  have hsome : o.class? ⟨i⟩ = some c := hi
  rw [ho.class_id hsome, hsome]

/-- A found class is listed. -/
theorem mem_of_class? {id : ClassId} {c : Class} (h : o.class? id = some c) : c ∈ o.classes :=
  List.mem_of_getElem? h

/-- Classes of one qualified name are one class. -/
theorem eq_of_qualifiedName_eq (ho : o.Arena) {c d : Class} (hc : c ∈ o.classes) (hd : d ∈ o.classes)
    (h : c.qualifiedName = d.qualifiedName) : c = d :=
  List.inj_on_of_nodup_map ho.class_names_nodup hc hd h

/-- A listed package is found at its id. -/
theorem package?_of_mem (ho : o.Arena) {p : Package} (hp : p ∈ o.packages) : o.package? p.id = some p := by
  obtain ⟨i, hi⟩ := List.mem_iff_getElem?.mp hp
  have hsome : o.package? ⟨i⟩ = some p := hi
  rw [ho.package_id hsome, hsome]

/-- The classes that a package lists are those that it owns. -/
theorem mem_filterMap_class?_iff (ho : o.Arena) {p : Package} (hp : p ∈ o.packages) {c : Class} :
    c ∈ p.classes.filterMap o.class? ↔ c ∈ o.classes ∧ c.package = p.id := by
  have hlists := ho.package_classes (ho.package?_of_mem hp)
  rw [List.mem_filterMap]
  constructor
  · rintro ⟨id, hid, hc⟩
    obtain ⟨d, hd, hpackage⟩ := (hlists id).mp hid
    obtain rfl := Option.some.inj (hc.symm.trans hd)
    exact ⟨mem_of_class? hc, hpackage⟩
  · rintro ⟨hc, hpackage⟩
    have hfound := ho.class?_of_mem hc
    exact ⟨c.id, (hlists c.id).mpr ⟨c, hfound, hpackage⟩, hfound⟩

/-- A qualified name is that of a found class. -/
theorem className_eq {id : ClassId} {c : Class} (h : o.class? id = some c) :
    o.className id = c.qualifiedName := by
  simp [className, h]

/-- Found classes of one qualified name have one id. -/
theorem id_eq_of_className_eq (ho : o.Arena) {c d : ClassId} {x y : Class} (hc : o.class? c = some x)
    (hd : o.class? d = some y) (h : o.className c = o.className d) : c = d := by
  rw [className_eq hc, className_eq hd] at h
  have heq := ho.eq_of_qualifiedName_eq (mem_of_class? hc) (mem_of_class? hd) h
  rw [← ho.class_id hc, ← ho.class_id hd, heq]

end Ontology.Arena

namespace Assembly

variable {ps : List PackageDeclaration}

/-- The classes of a package are its declared types that are classes. -/
theorem mem_classes_iff {p : PackageDeclaration} {c : ClassDeclaration} :
    c ∈ p.classes ↔ .ofClass c ∈ p.types := by
  simp only [PackageDeclaration.classes, List.mem_filterMap]
  constructor
  · intro hall
    obtain ⟨t, ht, h⟩ := hall
    cases t with
    | ofClass d => cases h; exact ht
    | ofEnum e => cases h
  · exact fun h => ⟨.ofClass c, h, rfl⟩

/-- The classes of all packages are those of each package, with the position of the package. -/
theorem mem_classList_iff {package : PackageId} {c : ClassDeclaration} :
    (package, c) ∈ classList ps ↔ ∃ p, ps[package.index]? = some p ∧ c ∈ p.classes := by
  simp only [classList, List.mem_flatMap, List.mem_map, Prod.mk.injEq]
  constructor
  · intro hall
    obtain ⟨⟨p, i⟩, hp, d, hd, rfl, rfl⟩ := hall
    exact ⟨p, List.mem_zipIdx_iff_getElem?.mp hp, hd⟩
  · intro hall
    obtain ⟨p, hp, hc⟩ := hall
    exact ⟨(p, package.index), List.mem_zipIdx_iff_getElem?.mpr hp, c, hc, rfl, rfl⟩

/-- The class at a position comes from the declaration at that position. -/
theorem getElem?_classes {i : Nat} {c : Class} (h : (classes ps)[i]? = some c) :
    ∃ d, (classList ps)[i]? = some (c.package, d) ∧ c.id = ⟨i⟩ ∧ c.name = d.name ∧
      c.qualifiedName = d.qualifiedName := by
  simp only [classes, List.getElem?_map, List.getElem?_zipIdx, Option.map_eq_some_iff] at h
  obtain ⟨_, ⟨⟨package, d⟩, hd, rfl⟩, rfl⟩ := h
  exact ⟨d, hd, by simp, rfl, rfl⟩

/-- The package at a position comes from the declaration at that position. -/
theorem getElem?_packages {i : Nat} {p : Package} (h : (packages ps)[i]? = some p) :
    ∃ d, ps[i]? = some d ∧ p.id = ⟨i⟩ ∧ p.name = d.name ∧
      p.classes = ((classes ps).filter fun c => c.package = ⟨i⟩).map Class.id := by
  simp only [packages, List.getElem?_map, List.getElem?_zipIdx, Option.map_eq_some_iff] at h
  obtain ⟨_, ⟨d, hd, rfl⟩, rfl⟩ := h
  exact ⟨d, hd, by simp, rfl, by simp⟩

/-- A declared package is assembled at its position under its name. -/
theorem exists_getElem?_packages {i : Nat} {d : PackageDeclaration} (h : ps[i]? = some d) :
    ∃ p, (packages ps)[i]? = some p ∧ p.name = d.name := by
  simp [packages, List.getElem?_zipIdx, h]

/-- Forgetting positions of packages leaves what is declared in them. -/
theorem map_flatMap_zipIdx {β γ : Type} (declared : PackageDeclaration → List β) (f : β → γ) :
    ((ps.zipIdx.flatMap fun (p, i) => (declared p).map fun x => (PackageId.mk i, x)).map fun x => f x.2) =
      ps.flatMap fun p => (declared p).map f := by
  have hfst : ps.flatMap (fun p => (declared p).map f) =
      (ps.zipIdx.map Prod.fst).flatMap fun p => (declared p).map f := by
    rw [List.zipIdx_map_fst]
  rw [hfst, List.map_flatMap, List.flatMap_map]
  simp only [List.map_map, Function.comp_def]

/-- The qualified names of the assembled classes are those of the declared ones. -/
theorem map_qualifiedName_classes :
    (classes ps).map Class.qualifiedName =
      ps.flatMap fun p => p.classes.map ClassDeclaration.qualifiedName := by
  rw [← map_flatMap_zipIdx]
  change _ = (classList ps).map fun c => c.2.qualifiedName
  conv_rhs => rw [← List.zipIdx_map_fst 0 (classList ps), List.map_map]
  rw [classes, List.map_map]
  rfl

/-- The qualified names of the assembled enumerations are those of the declared ones. -/
theorem map_qualifiedName_enums :
    (enums ps).map Enumeration.qualifiedName =
      ps.flatMap fun p => p.enums.map EnumDeclaration.qualifiedName := by
  rw [← map_flatMap_zipIdx]
  change _ = (enumList ps).map fun e => e.2.qualifiedName
  conv_rhs => rw [← List.zipIdx_map_fst 0 (enumList ps), List.map_map]
  rw [enums, List.map_map]
  rfl

/-- Sorting the types of a package by kind permutes their qualified names. -/
theorem perm_qualifiedNames (p : PackageDeclaration) :
    (p.classes.map ClassDeclaration.qualifiedName ++ p.enums.map EnumDeclaration.qualifiedName).Perm
      (p.types.map TypeDeclaration.qualifiedName) := by
  unfold PackageDeclaration.classes PackageDeclaration.enums
  induction p.types with
  | nil => exact List.Perm.refl _
  | cons t types ih =>
    cases t with
    | ofClass c => exact ih.cons _
    | ofEnum e => exact List.perm_middle.trans (ih.cons _)

/-- Assembly permutes the qualified names of declared types. -/
theorem perm_flatMap_qualifiedNames :
    ((classes ps).map Class.qualifiedName ++ (enums ps).map Enumeration.qualifiedName).Perm
      (ps.flatMap fun p => p.types.map TypeDeclaration.qualifiedName) := by
  rw [map_qualifiedName_classes, map_qualifiedName_enums]
  apply (List.flatMap_append_perm ps _ _).trans
  exact List.Perm.flatMap_left ps fun p _ => perm_qualifiedNames p

/-- Different qualified names of declared types stay different when the types are assembled. -/
theorem nodup_qualifiedNames
    (h : (ps.flatMap fun p => p.types.map TypeDeclaration.qualifiedName).Nodup) :
    ((classes ps).map Class.qualifiedName ++ (enums ps).map Enumeration.qualifiedName).Nodup :=
  (List.Perm.nodup_iff perm_flatMap_qualifiedNames).mpr h

/-- The index leads from the qualified name of each type to its id. -/
theorem get?_index
    (h : ((classes ps).map Class.qualifiedName ++ (enums ps).map Enumeration.qualifiedName).Nodup)
    {name : String} {entity : EntityId} :
    (index ps).get? name = some entity ↔ (∃ c ∈ classes ps, c.qualifiedName = name ∧ .ofClass c.id = entity) ∨
      ∃ e ∈ enums ps, e.qualifiedName = name ∧ .ofEnum e.id = entity := by
  have hkeys : (((classes ps).map fun c => (c.qualifiedName, EntityId.ofClass c.id)) ++
      (enums ps).map fun e => (e.qualifiedName, EntityId.ofEnum e.id)).map Prod.fst =
        (classes ps).map Class.qualifiedName ++ (enums ps).map Enumeration.qualifiedName := by
    simp [Function.comp_def]
  rw [index, OrderedMap.get?_ofList (hkeys ▸ h)]
  simp only [List.mem_append, List.mem_map, Prod.mk.injEq]

/-- The index leads to a class from its qualified name only. -/
theorem get?_index_eq_class_iff
    (h : ((classes ps).map Class.qualifiedName ++ (enums ps).map Enumeration.qualifiedName).Nodup)
    {name : String} {id : ClassId} :
    (index ps).get? name = some (.ofClass id) ↔ ∃ c ∈ classes ps, c.id = id ∧ c.qualifiedName = name := by
  rw [get?_index h]
  simp only [EntityId.ofClass.injEq, reduceCtorEq, and_false, exists_false, or_false]
  exact exists_congr fun c => and_congr_right fun _ => and_comm

/-- The index leads to types from their qualified names only. -/
theorem mem_qualifiedNames_of_get?_index
    (h : (ps.flatMap fun p => p.types.map TypeDeclaration.qualifiedName).Nodup) {name : String} {entity : EntityId}
    (hget : (index ps).get? name = some entity) :
    name ∈ ps.flatMap fun p => p.types.map TypeDeclaration.qualifiedName := by
  rw [← perm_flatMap_qualifiedNames.mem_iff, List.mem_append]
  rcases (get?_index (nodup_qualifiedNames h)).mp hget with hc | he
  · obtain ⟨c, hc, rfl, -⟩ := hc
    exact Or.inl (List.mem_map_of_mem hc)
  · obtain ⟨e, he, rfl, -⟩ := he
    exact Or.inr (List.mem_map_of_mem he)

end Assembly

namespace Ontology

section Assembled

variable {name version doc : String} {ps : List PackageDeclaration}

/-- An assembled class has its position as id. -/
theorem class_id_assemble {id : ClassId} {c : Class} (hc : (assemble name version doc ps).class? id = some c) :
    c.id = id := by
  obtain ⟨d, -, hid, -⟩ := Assembly.getElem?_classes hc
  exact hid

/-- An assembled class is found at its id. -/
theorem class?_assemble_of_mem {c : Class} (hmem : c ∈ Assembly.classes ps) :
    (assemble name version doc ps).class? c.id = some c := by
  obtain ⟨i, hi⟩ := List.mem_iff_getElem?.mp hmem
  have hsome : (assemble name version doc ps).class? ⟨i⟩ = some c := hi
  rw [class_id_assemble hsome, hsome]

variable (hnames : ∀ p ∈ ps, ∀ t ∈ p.types, t.qualifiedName = p.name ++ "." ++ t.name)

include hnames

/-- An assembled class has a package, whose name stands in front of its own. -/
theorem exists_package?_assemble {id : ClassId} {c : Class}
    (hc : (assemble name version doc ps).class? id = some c) :
    ∃ p, (assemble name version doc ps).package? c.package = some p ∧
      c.qualifiedName = p.name ++ "." ++ c.name := by
  obtain ⟨d, hd, -, hname, hqualified⟩ := Assembly.getElem?_classes hc
  obtain ⟨q, hq, hmem⟩ := Assembly.mem_classList_iff.mp (List.mem_of_getElem? hd)
  obtain ⟨p, hp, hpname⟩ := Assembly.exists_getElem?_packages hq
  refine ⟨p, hp, ?_⟩
  rw [hqualified, hname, hpname]
  exact hnames q (List.mem_of_getElem? hq) _ (Assembly.mem_classes_iff.mp hmem)

/-- An ontology assembled from declarations with proper and different qualified names has its shape. -/
theorem arena_assemble (hnodup : (ps.flatMap fun p => p.types.map TypeDeclaration.qualifiedName).Nodup) :
    (assemble name version doc ps).Arena where
  class_id := class_id_assemble
  class_package := fun hc => (exists_package?_assemble hnames hc).imp fun _ h => h.1
  class_name := by
    intro id c hc
    obtain ⟨p, hp, hname⟩ := exists_package?_assemble hnames hc
    simpa [packageName, hp] using hname
  class_names_nodup := (Assembly.nodup_qualifiedNames hnodup).of_append_left
  package_id := by
    intro id p hp
    obtain ⟨d, -, hpid, -⟩ := Assembly.getElem?_packages hp
    exact hpid
  package_classes := by
    intro id p hp cid
    obtain ⟨d, -, -, -, hclasses⟩ := Assembly.getElem?_packages hp
    rw [hclasses]
    simp only [List.mem_map, List.mem_filter, decide_eq_true_eq]
    constructor
    · intro hc
      obtain ⟨c, ⟨hmem, hpackage⟩, rfl⟩ := hc
      exact ⟨c, class?_assemble_of_mem hmem, hpackage⟩
    · intro hc
      obtain ⟨c, hc, hpackage⟩ := hc
      exact ⟨c, ⟨List.mem_of_getElem? hc, hpackage⟩, class_id_assemble hc⟩
  index_class := by
    intro key id
    apply (Assembly.get?_index_eq_class_iff (Assembly.nodup_qualifiedNames hnodup)).trans
    constructor
    · intro hc
      obtain ⟨c, hmem, rfl, hname⟩ := hc
      exact ⟨c, class?_assemble_of_mem hmem, hname⟩
    · intro hc
      obtain ⟨c, hc, hname⟩ := hc
      exact ⟨c, List.mem_of_getElem? hc, class_id_assemble hc, hname⟩

end Assembled

end Ontology

/-- The declarations of a schema are assembled into an ontology of the right shape. -/
theorem Schema.arena_of_declarations {s : Schema} {ps : List PackageDeclaration}
    (h : s.declarations = .ok ps) : (Ontology.assemble s.name s.version s.doc ps).Arena := by
  obtain ⟨-, hqualified, htypes⟩ := Declaration.readPackages_names h
  apply Ontology.arena_assemble htypes
  rw [hqualified]
  exact (Declaration.readPackages_ok_iff.mp ⟨ps, h⟩).2.2

/-- A built ontology has the right shape. -/
theorem Schema.arena_of_build {s : Schema} {o : Ontology} (h : s.build = .ok o) : o.Arena := by
  obtain ⟨ps, hps, rfl⟩ := Schema.build_eq_ok_iff.mp h
  exact (Schema.arena_of_declarations hps).of_fixed_eq (Ontology.fixed_resolve _)

end OntologyCompiler
