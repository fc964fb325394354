import OntologyCompiler.Proofs.Declarations.Proper
import OntologyCompiler.Proofs.Renaming.Views

/-!
# Assembling reordered declarations

Declarations in another order are assembled into a renamed ontology: packages, types and properties get other
positions, and everything is wired up between them as before. Lists by name do not change, since names are
different.
-/

namespace OntologyCompiler

/-- A class declared with its properties in another order. -/
structure ClassDeclaration.Reordered (c c' : ClassDeclaration) : Prop where
  eq : c' = { c with properties := c'.properties }
  properties : c.properties.Perm c'.properties

/-- A type declared with its properties in another order. -/
inductive TypeDeclaration.Reordered : TypeDeclaration → TypeDeclaration → Prop
  | ofClass {c c' : ClassDeclaration} (h : c.Reordered c') : Reordered (.ofClass c) (.ofClass c')
  | ofEnum (e : EnumDeclaration) : Reordered (.ofEnum e) (.ofEnum e)

/-- Every type is in some order. -/
theorem TypeDeclaration.Reordered.refl (t : TypeDeclaration) : t.Reordered t := by
  cases t with
  | ofClass c => exact .ofClass ⟨rfl, .refl _⟩
  | ofEnum e => exact .ofEnum e

/-- A reordered type has its qualified name. -/
theorem TypeDeclaration.Reordered.qualifiedName_eq {t t' : TypeDeclaration} (h : t.Reordered t') :
    t'.qualifiedName = t.qualifiedName := by
  cases h with
  | ofClass h =>
    rw [qualifiedName, h.eq]
    rfl
  | ofEnum e => rfl

/-- A package declared with its types and their properties in another order. -/
structure PackageDeclaration.Reordered (p p' : PackageDeclaration) : Prop where
  name_eq : p'.name = p.name
  doc_eq : p'.doc = p.doc
  types : Shuffled TypeDeclaration.Reordered p.types p'.types

namespace PackageDeclaration.Reordered

variable {p p' : PackageDeclaration}

/-- The classes of a reordered package correspond. -/
theorem classes (h : p.Reordered p') : Shuffled ClassDeclaration.Reordered p.classes p'.classes := by
  rw [PackageDeclaration.classes, PackageDeclaration.classes, List.filterMap_eq_flatMap_toList,
    List.filterMap_eq_flatMap_toList]
  refine h.types.flatMap fun t t' ht => .of_forall₂ ?_
  cases ht with
  | ofClass hc => exact .cons hc .nil
  | ofEnum e => exact .nil

/-- The enumerations of a reordered package are permuted. -/
theorem enums (h : p.Reordered p') : Shuffled Eq p.enums p'.enums := by
  rw [PackageDeclaration.enums, PackageDeclaration.enums, List.filterMap_eq_flatMap_toList,
    List.filterMap_eq_flatMap_toList]
  refine h.types.flatMap fun t t' ht => .of_forall₂ ?_
  cases ht with
  | ofClass hc => exact .nil
  | ofEnum e => exact .cons rfl .nil

end PackageDeclaration.Reordered

namespace Assembly

/-- What is made of the parts of numbered items is grouped by their numbers: what holds within each group of parts
carries over to what is made of them. -/
theorem pairwise_numbered {α β γ : Type} {l : List α} {parts : α × ℕ → List β} {make : β × ℕ → γ} {g : β → ℕ}
    {R : β → β → Prop} {S : γ → γ → Prop} (hgroup : ∀ x, ∀ b ∈ parts x, g b = x.2)
    (h : ∀ a i, l[i]? = some a → (parts (a, i)).Pairwise R)
    (hmake : ∀ x y, (g x.1 = g y.1 → R x.1 y.1) → S (make x) (make y)) :
    ((l.zipIdx.flatMap parts).zipIdx.map make).Pairwise S := by
  have hplaces : (l.zipIdx.map Prod.snd).Pairwise (· ≠ ·) := by
    rw [List.zipIdx_map_snd]
    exact List.nodup_range'
  have hparts : (l.zipIdx.flatMap parts).Pairwise fun b c => g b = g c → R b c := by
    refine List.pairwise_flatMap.mpr ⟨?_, (List.pairwise_map.mp hplaces).imp ?_⟩
    · rintro ⟨a, i⟩ ha
      apply (h a i (List.mem_zipIdx_iff_getElem?.mp ha)).imp
      intro b c hbc _
      exact hbc
    · intro x y hne b hb c hc heq
      rw [hgroup x b hb, hgroup y c hc] at heq
      exact absurd heq hne
  rw [← List.zipIdx_map_fst 0 (l.zipIdx.flatMap parts), List.pairwise_map] at hparts
  exact List.pairwise_map.mpr (hparts.imp (hmake _ _))

variable {ps ps' : List PackageDeclaration}

/-- The declared properties are those of the classes. -/
theorem exists_class_of_mem_propertyList {x : ClassId × PackageId × PropertyDeclaration} (h : x ∈ propertyList ps) :
    ∃ p ∈ ps, ∃ c ∈ p.classes, x.2.2 ∈ c.properties := by
  obtain ⟨⟨⟨package, c⟩, i⟩, hc, hx⟩ := List.mem_flatMap.mp h
  obtain ⟨q, hq, rfl⟩ := List.mem_map.mp hx
  have hlisted : (package, c) ∈ classList ps := List.mem_of_getElem? (List.mem_zipIdx_iff_getElem?.mp hc)
  obtain ⟨p, hp, hcp⟩ := mem_classList_iff.mp hlisted
  exact ⟨p, List.mem_of_getElem? hp, c, hcp, hq⟩

section Names

variable (h : ∀ p ∈ ps, p.Proper)

include h

/-- Properties of one class have different names. -/
theorem pairwise_properties : (properties ps).Pairwise fun a b => a.owner = b.owner → a.name ≠ b.name := by
  apply pairwise_numbered (g := fun b => b.1.index) (R := fun b c => b.2.2.name ≠ c.2.2.name)
  · rintro ⟨⟨package, c⟩, i⟩ b hb
    obtain ⟨p, -, rfl⟩ := List.mem_map.mp hb
    rfl
  · rintro ⟨package, c⟩ i hc
    obtain ⟨p, hp, hcp⟩ := mem_classList_iff.mp (List.mem_of_getElem? hc)
    exact List.pairwise_map.mpr (List.pairwise_map.mp ((h p (List.mem_of_getElem? hp)).property_names c hcp))
  · rintro ⟨⟨owner, package, p⟩, i⟩ ⟨⟨owner', package', p'⟩, i'⟩ hne howner
    exact hne (congrArg ClassId.index howner)

/-- The own properties of a class have different names. -/
theorem nodup_ownNames (id : ClassId) : (((properties ps).filter fun p => p.owner = id).map Property.name).Nodup := by
  refine List.pairwise_map.mpr (((pairwise_properties h).filter _).imp_of_mem ?_)
  intro a b ha hb hne
  have hownerA : a.owner = id := by simpa using (List.mem_filter.mp ha).2
  have hownerB : b.owner = id := by simpa using (List.mem_filter.mp hb).2
  exact hne (hownerA.trans hownerB.symm)

/-- Classes of one package are listed by name. -/
theorem pairwise_classes :
    (classes ps).Pairwise fun a b => a.package = b.package → compare a.name b.name = .lt := by
  apply pairwise_numbered (g := fun b => b.1.index) (R := fun b c => compare b.2.name c.2.name = .lt)
  · rintro ⟨p, i⟩ b hb
    obtain ⟨c, -, rfl⟩ := List.mem_map.mp hb
    rfl
  · intro p i hp
    exact List.pairwise_map.mpr (h p (List.mem_of_getElem? hp)).classes
  · rintro ⟨⟨package, c⟩, i⟩ ⟨⟨package', c'⟩, i'⟩ hlt hpackage
    exact hlt (congrArg PackageId.index hpackage)

/-- Enumerations of one package are listed by name. -/
theorem pairwise_enums :
    (enums ps).Pairwise fun a b => a.package = b.package → compare a.name b.name = .lt := by
  apply pairwise_numbered (g := fun b => b.1.index) (R := fun b c => compare b.2.name c.2.name = .lt)
  · rintro ⟨p, i⟩ b hb
    obtain ⟨e, -, rfl⟩ := List.mem_map.mp hb
    rfl
  · intro p i hp
    exact List.pairwise_map.mpr (h p (List.mem_of_getElem? hp)).enums
  · rintro ⟨⟨package, e⟩, i⟩ ⟨⟨package', e'⟩, i'⟩ hlt hpackage
    exact hlt (congrArg PackageId.index hpackage)

end Names

/-- Every package, class, enumeration and property is declared at its new position. -/
structure Rearranged (ρ : Renaming) (ps ps' : List PackageDeclaration) : Prop where
  package_places : Placed PackageDeclaration.Reordered ρ.packageAt ps ps'
  class_places : Placed (fun x y => y.1 = ρ.package x.1 ∧ x.2.Reordered y.2) ρ.classAt (classList ps) (classList ps')
  enum_places : Placed (fun x y => y = (ρ.package x.1, x.2)) ρ.enumAt (enumList ps) (enumList ps')
  property_places : Placed (fun x y => y = (ρ.ofClass x.1, ρ.package x.2.1, x.2.2)) ρ.propertyAt (propertyList ps)
    (propertyList ps')

namespace Rearranged

/-- Reordered declarations have new positions. -/
theorem exists_of_shuffled (h : Shuffled PackageDeclaration.Reordered ps ps') : ∃ ρ, Rearranged ρ ps ps' := by
  obtain ⟨packageAt, hpackages⟩ := Placed.exists_of_shuffled h
  have hclassList : Shuffled (fun x y => y.1 = ⟨packageAt x.1.index⟩ ∧ x.2.Reordered y.2) (classList ps)
      (classList ps') := by
    apply hpackages.places.flatMap
    rintro ⟨p, i⟩ ⟨p', i'⟩ hp
    exact hp.1.classes.map fun c c' hc => ⟨congrArg PackageId.mk hp.2, hc⟩
  have henumList : Shuffled (fun x y => y = (⟨packageAt x.1.index⟩, x.2)) (enumList ps) (enumList ps') := by
    apply hpackages.places.flatMap
    rintro ⟨p, i⟩ ⟨p', i'⟩ hp
    exact hp.1.enums.map fun e e' he => congrArg₂ Prod.mk (congrArg PackageId.mk hp.2) he.symm
  obtain ⟨classAt, hclasses⟩ := Placed.exists_of_shuffled hclassList
  obtain ⟨enumAt, henums⟩ := Placed.exists_of_shuffled henumList
  have hpropertyList : Shuffled (fun x y => y = (⟨classAt x.1.index⟩, ⟨packageAt x.2.1.index⟩, x.2.2))
      (propertyList ps) (propertyList ps') := by
    apply hclasses.places.flatMap
    rintro ⟨⟨package, c⟩, i⟩ ⟨⟨package', c'⟩, i'⟩ hc
    obtain ⟨⟨hpackage, hreordered⟩, hi⟩ := hc
    dsimp only at hpackage hreordered hi
    subst hpackage hi
    refine (Shuffled.of_perm hreordered.properties).map fun q q' hq => ?_
    rw [hq]
  obtain ⟨propertyAt, hproperties⟩ := Placed.exists_of_shuffled hpropertyList
  exact ⟨⟨packageAt, classAt, enumAt, propertyAt⟩, hpackages, hclasses, henums, hproperties⟩

variable {ρ : Renaming} (h : Rearranged ρ ps ps')

include h

/-- The enumerations are assembled at their new positions. -/
theorem moved_enums : Moved ρ.enumAt ρ.onEnum (enums ps) (enums ps') := by
  apply h.enum_places.moved
  rintro ⟨package, e⟩ _ i - rfl
  rfl

variable (hproper : ∀ p ∈ ps, p.Proper)

include hproper

/-- The properties are assembled at their new positions. -/
theorem moved_properties : Moved ρ.propertyAt ρ.onProperty (properties ps) (properties ps') := by
  apply h.property_places.moved
  rintro ⟨owner, package, p⟩ _ i hp rfl
  obtain ⟨q, hq, c, hc, hpc⟩ := exists_class_of_mem_propertyList (List.mem_of_getElem? hp)
  have htype : ρ.type p.type = p.type := ρ.type_eq_self ((hproper q hq).property_types c hc p hpc)
  simp only [Renaming.onProperty, Renaming.property, htype]

/-- A class keeps its own properties. -/
theorem ownIds_eq (id : ClassId) :
    ownIds (properties ps') (ρ.ofClass id) = (ownIds (properties ps) id).map ρ.property := by
  have hperm : (((properties ps).filter fun p => p.owner = id).map ρ.onProperty).Perm
      ((properties ps').filter fun p => p.owner = ρ.ofClass id) := by
    refine .trans (.of_eq ?_) ((h.moved_properties hproper).perm.filter _)
    rw [List.filter_map]
    congr 1
    apply List.filter_congr
    intro p _
    simp only [Function.comp_apply, Renaming.onProperty, Renaming.ofClass_eq_iff h.class_places.injective]
  rw [ownIds, ownIds, sortOn_eq_map_of_perm hperm (fun _ => rfl) (nodup_ownNames hproper id), List.map_map,
    List.map_map]
  rfl

/-- The classes are assembled at their new positions. -/
theorem moved_classes : Moved ρ.classAt ρ.onClass (classes ps) (classes ps') := by
  apply h.class_places.moved
  rintro ⟨package, c⟩ ⟨package', c'⟩ i hc ⟨hpackage, hreordered⟩
  obtain ⟨p, hp, hcp⟩ := mem_classList_iff.mp (List.mem_of_getElem? hc)
  have hdecodings : c.decodings.map ρ.onDecoding = c.decodings := by
    conv_rhs => rw [← List.map_id c.decodings]
    apply List.map_congr_left
    intro d hd
    exact ρ.onDecoding_eq_self ((hproper p (List.mem_of_getElem? hp)).decoding_types c hcp d hd)
  have hown : ownIds (properties ps') ⟨ρ.classAt i⟩ = (ownIds (properties ps) ⟨i⟩).map ρ.property :=
    h.ownIds_eq hproper ⟨i⟩
  dsimp only at hpackage hreordered
  rw [hpackage, hreordered.eq]
  simp only [Renaming.onClass, hdecodings, hown, Option.map_none]
  rfl

omit hproper in
/-- What a package lists by name is listed at its new positions in the same order. -/
theorem filter_eq_map {α : Type} {image : α → α} {package : α → PackageId} {name : α → String} {l l' : List α}
    (hperm : (l.map image).Perm l') (hpackage : ∀ a, package (image a) = ρ.package (package a))
    (hname : ∀ a, name (image a) = name a)
    (hl : l.Pairwise fun a b => package a = package b → compare (name a) (name b) = .lt)
    (hl' : l'.Pairwise fun a b => package a = package b → compare (name a) (name b) = .lt) (id : PackageId) :
    (l'.filter fun a => package a = ρ.package id) = (l.filter fun a => package a = id).map image := by
  have hascending {l : List α} (hl : l.Pairwise fun a b => package a = package b → compare (name a) (name b) = .lt)
      (id : PackageId) : (l.filter fun a => package a = id).Pairwise fun a b => compare (name a) (name b) = .lt := by
    apply (hl.filter _).imp_of_mem
    intro a b ha hb hlt
    have ha' : package a = id := by simpa using (List.mem_filter.mp ha).2
    have hb' : package b = id := by simpa using (List.mem_filter.mp hb).2
    exact hlt (ha'.trans hb'.symm)
  apply eq_of_ascending (hascending hl' (ρ.package id))
  · rw [List.pairwise_map]
    simp only [hname]
    exact hascending hl id
  · intro b
    simp only [List.mem_filter, List.mem_map, decide_eq_true_eq, ← hperm.mem_iff]
    constructor
    · rintro ⟨⟨a, ha, rfl⟩, hid⟩
      rw [hpackage, Renaming.package_eq_iff h.package_places.injective] at hid
      exact ⟨a, ⟨ha, hid⟩, rfl⟩
    · rintro ⟨a, ⟨ha, rfl⟩, rfl⟩
      exact ⟨⟨a, ha, rfl⟩, hpackage a⟩

variable (hproper' : ∀ p ∈ ps', p.Proper)

include hproper'

/-- The packages are assembled at their new positions. -/
theorem moved_packages : Moved ρ.packageAt ρ.onPackage (packages ps) (packages ps') := by
  apply h.package_places.moved
  intro p p' i hp hreordered
  have hclasses := h.filter_eq_map (h.moved_classes hproper).perm (fun _ => rfl) (fun _ => rfl)
    (pairwise_classes hproper) (pairwise_classes hproper') ⟨i⟩
  have henums := h.filter_eq_map h.moved_enums.perm (fun _ => rfl) (fun _ => rfl)
    (pairwise_enums hproper) (pairwise_enums hproper') ⟨i⟩
  rw [Renaming.package] at hclasses henums
  dsimp only
  rw [hreordered.name_eq, hreordered.doc_eq, hclasses, henums, List.map_map, List.map_map]
  simp only [Renaming.onPackage, List.map_map]
  rfl

omit hproper'

variable (hnodup : (ps.flatMap fun p => p.types.map TypeDeclaration.qualifiedName).Nodup)
  (hnodup' : (ps'.flatMap fun p => p.types.map TypeDeclaration.qualifiedName).Nodup)

include hnodup hnodup'

/-- The types are found under the same names. -/
theorem get?_index_eq (name : String) : (index ps').get? name = ((index ps).get? name).map ρ.entity := by
  ext entity
  rw [Option.map_eq_some_iff, get?_index (nodup_qualifiedNames hnodup')]
  simp only [get?_index (nodup_qualifiedNames hnodup), (h.moved_classes hproper).mem_iff, h.moved_enums.mem_iff]
  constructor
  · rintro (⟨_, ⟨c, hc, rfl⟩, hname, rfl⟩ | ⟨_, ⟨e, he, rfl⟩, hname, rfl⟩)
    · exact ⟨.ofClass c.id, .inl ⟨c, hc, hname, rfl⟩, rfl⟩
    · exact ⟨.ofEnum e.id, .inr ⟨e, he, hname, rfl⟩, rfl⟩
  · rintro ⟨_, ⟨c, hc, hname, rfl⟩ | ⟨e, he, hname, rfl⟩, rfl⟩
    · exact .inl ⟨_, ⟨c, hc, rfl⟩, hname, rfl⟩
    · exact .inr ⟨_, ⟨e, he, rfl⟩, hname, rfl⟩

include hproper'

/-- Rearranged declarations are assembled into a renamed ontology. -/
theorem carries (name version doc : String) :
    ρ.Carries (.assemble name version doc ps) (.assemble name version doc ps') where
  name_eq := rfl
  version_eq := rfl
  doc_eq := rfl
  packages := h.moved_packages hproper hproper'
  classes := h.moved_classes hproper
  enums := h.moved_enums
  properties := h.moved_properties hproper
  index := h.get?_index_eq hproper hnodup hnodup'
  diagnostics := .refl []

end Rearranged

end Assembly

end OntologyCompiler
