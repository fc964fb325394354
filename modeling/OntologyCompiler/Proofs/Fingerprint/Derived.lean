import OntologyCompiler.Proofs.Fingerprint.Reading
import OntologyCompiler.Proofs.Named

/-!
# What a fingerprint tells of the derived sets

The blocks of a text give back the classes with their bases, imports, deferred imports and effective properties, and
the packages with their associations and external types: names, edges and cardinalities can be read off the lines. The
target of a property is told by the name of its type. Whether this is a keyword or the name of a class can be seen from
the text, but the name of an enumeration prints like a name that leads nowhere. So ontologies of one text agree in all
but this: they have the same derived sets exactly if the same names dangle.
-/

namespace OntologyCompiler

/-- What is derived of an effective property. -/
structure DerivedProperty where
  name : String
  target : NamedTarget
  cardinality : Cardinality
  deriving DecidableEq

/-- What is derived of a class. -/
structure DerivedClass where
  qualifiedName : String
  base : Option String
  imports : OrderedSet ImportEdge
  circularImports : OrderedSet ImportEdge
  properties : List DerivedProperty
  deriving DecidableEq

/-- What is derived of a package. -/
structure DerivedPackage where
  name : String
  associatedPackages : OrderedSet String
  externalTypes : OrderedSet ImportEdge
  deriving DecidableEq

/-- The derived sets: classes by qualified name and packages by name. -/
structure Derived where
  classes : List DerivedClass
  packages : List DerivedPackage
  deriving DecidableEq

namespace NamedTarget

/-- Enumerations and names that lead nowhere, seen as one. -/
def blurred : NamedTarget → NamedTarget
  | .ofEnum name => .unresolved name
  | target => target

/-- The blurred target of a type with a name, given the names of all classes. -/
def seen (classes : List String) (name : String) : NamedTarget :=
  match ScalarKind.ofKeyword? name with
  | some kind => .scalar kind
  | none => if name ∈ classes then .ofClass name else .unresolved name

/-- Targets that are seen as one are the same if both or none of them lead nowhere. -/
theorem eq_of_blurred_eq {a b : NamedTarget} (h : a.blurred = b.blurred)
    (hunresolved : ∀ name, a = .unresolved name ↔ b = .unresolved name) : a = b := by
  cases a with
  | unresolved name => exact ((hunresolved name).mp rfl).symm
  | scalar kind => cases b <;> simp_all [blurred]
  | ofClass name => cases b <;> simp_all [blurred]
  | ofEnum name => cases b <;> simp_all [blurred]

end NamedTarget

namespace Ontology

/-- What is derived of a property, with its target as it is seen. -/
def derivedProperty (o : Ontology) (see : NamedTarget → NamedTarget) (p : Property) : DerivedProperty :=
  ⟨p.name, see (o.namedTarget p.type.target), p.cardinality⟩

/-- What is derived of a class, with targets as they are seen. -/
def derivedClass (o : Ontology) (see : NamedTarget → NamedTarget) (c : Class) : DerivedClass where
  qualifiedName := c.qualifiedName
  base := c.base.map o.className
  imports := c.imports
  circularImports := c.circularImports
  properties := (o.allProperties c.id).map (o.derivedProperty see)

/-- What is derived of a package. -/
def derivedPackage (o : Ontology) (p : Package) : DerivedPackage where
  name := p.name
  associatedPackages := .ofList (p.associatedPackages.toList.map o.packageName)
  externalTypes := p.externalTypes

/-- The derived sets, with targets as they are seen. -/
def derivedWith (o : Ontology) (see : NamedTarget → NamedTarget) : Derived where
  classes := (sortOn Class.qualifiedName o.classes).map (o.derivedClass see)
  packages := o.sortedPackages.map o.derivedPackage

/-- The derived sets. -/
def derived (o : Ontology) : Derived := o.derivedWith id

/-- Types of one name in two ontologies have targets that are seen alike. -/
def SeenAlike (o o' : Ontology) (see : NamedTarget → NamedTarget) : Prop :=
  ∀ p ∈ o.properties, ∀ p' ∈ o'.properties, p'.type.name = p.type.name →
    see (o'.namedTarget p'.type.target) = see (o.namedTarget p.type.target)

/-- The type of a property has a name that leads nowhere. -/
def Dangles (o : Ontology) (name : String) : Prop := ∃ p ∈ o.properties, p.type.target = .unresolved name

variable {o o' : Ontology} {p p' : Property} {c c' : Class}

namespace Legible

/-- A property is effective in the class that owns it. -/
theorem mem_allProperties (ho : o.Legible) (hp : p ∈ o.properties) :
    ∃ c ∈ o.classes, p ∈ o.allProperties c.id := by
  obtain ⟨i, hi⟩ := List.mem_iff_getElem?.mp hp
  have hfound : o.property? ⟨i⟩ = some p := hi
  obtain ⟨c, hc, -⟩ := ho.property_owner hfound
  have hown : p ∈ o.ownProperties p.owner := ho.mem_ownProperties_iff.mpr ⟨hp, rfl⟩
  have hnames : ((o.ownProperties p.owner).map Property.name).Nodup :=
    @nodup_of_ascending _ _ _ _ id _ (ho.properties_ascending p.owner)
  refine ⟨c, List.mem_of_getElem? hc, ?_⟩
  rw [ho.class_id hc, allProperties, lineage, List.flatMap_cons, keepFirst_append, keepFirst_eq_self hnames]
  exact perm_sortOn.mem_iff.mpr (List.mem_append_left _ hown)

/-- A type is bound to a class exactly if it has the name of one. -/
theorem blurred_target (ho : o.Legible) (hp : p ∈ o.properties) :
    (o.namedTarget p.type.target).blurred = .seen (o.classes.map Class.qualifiedName) p.type.name := by
  have hbound := ho.bound p hp
  have hclass (id : ClassId) (h : o.index.get? p.type.name = some (.ofClass id)) :
      p.type.name ∈ o.classes.map Class.qualifiedName := by
    obtain ⟨c, hc, hname⟩ := ho.index_class.mp h
    exact hname ▸ List.mem_map_of_mem (List.mem_of_getElem? hc)
  have hnoclass (h : ∀ id, o.index.get? p.type.name ≠ some (.ofClass id)) :
      p.type.name ∉ o.classes.map Class.qualifiedName := by
    intro hmem
    obtain ⟨c, hc, hname⟩ := List.mem_map.mp hmem
    exact h c.id (ho.index_class.mpr ⟨c, ho.class?_of_mem hc, hname⟩)
  have hkeyword (h : ∀ kind, p.type.target ≠ .scalar kind) : ScalarKind.ofKeyword? p.type.name = none := by
    rw [Option.eq_none_iff_forall_ne_some]
    exact fun kind hkind => h kind ((hbound.scalar kind).mpr (ScalarKind.ofKeyword?_eq_some_iff.mp hkind))
  unfold NamedTarget.seen
  cases htarget : p.type.target with
  | scalar kind =>
    rw [(hbound.scalar kind).mp htarget, ScalarKind.ofKeyword?_keyword]
    rfl
  | unresolved name =>
    obtain ⟨rfl, hnone, -⟩ := (hbound.unresolved name).mp htarget
    rw [hkeyword (by simp [htarget])]
    exact (if_neg (hnoclass (by simp [hnone]))).symm
  | resolved e =>
    have hindex := (hbound.resolved e).mp htarget
    have hname := ho.entityName_of_get?_index hindex
    rw [hkeyword (by simp [htarget])]
    cases e with
    | ofClass id => exact (congrArg NamedTarget.ofClass hname).trans (if_pos (hclass id hindex)).symm
    | ofEnum id =>
      exact (congrArg NamedTarget.unresolved hname).trans (if_neg (hnoclass (by simp [hindex]))).symm

/-- A type leads nowhere exactly if its name dangles. -/
theorem namedTarget_eq_unresolved_iff (ho : o.Legible) (hp : p ∈ o.properties) {name : String} :
    o.namedTarget p.type.target = .unresolved name ↔ name = p.type.name ∧ o.Dangles name := by
  have hnamed : o.namedTarget p.type.target = .unresolved name ↔ p.type.target = .unresolved name := by
    rcases p.type.target with kind | name' | (id | id) <;> simp [namedTarget]
  rw [hnamed]
  constructor
  · exact fun h => ⟨((ho.bound p hp).unresolved name).mp h |>.1, p, hp, h⟩
  · rintro ⟨rfl, q, hq, htarget⟩
    obtain ⟨hname, hnone, hkeyword⟩ := ((ho.bound q hq).unresolved _).mp htarget
    exact ((ho.bound p hp).unresolved _).mpr ⟨rfl, hname ▸ hnone, hname ▸ hkeyword⟩

/-- Classes with one block are derived alike, as far as targets of one name are seen alike. -/
theorem derivedClass_eq (ho : o.Legible) (ho' : o'.Legible) (hc : c ∈ o.classes) (hc' : c' ∈ o'.classes)
    (h : o'.classBlock c' = o.classBlock c) {see : NamedTarget → NamedTarget} (hsee : o.SeenAlike o' see) :
    o'.derivedClass see c' = o.derivedClass see c := by
  obtain ⟨hname, hbase⟩ := ho.head_eq_of_classBlock_eq ho' hc hc' h
  have himports := congrArg (fun b => b.texts .imported) h
  have hdeferred := congrArg (fun b => b.texts .deferred) h
  have hproperties := congrArg (fun b => b.texts .property) h
  simp only [texts_imported, texts_deferred, texts_property] at himports hdeferred hproperties
  rw [derivedClass, derivedClass, DerivedClass.mk.injEq]
  refine ⟨hname, hbase, ?_, ?_, ?_⟩
  · exact ImportEdge.set_eq_of_render_eq (fun e he => ho'.imports c' hc' e (.inl he))
      (fun e he => ho.imports c hc e (.inl he)) himports
  · exact ImportEdge.set_eq_of_render_eq (fun e he => ho'.imports c' hc' e (.inr he))
      (fun e he => ho.imports c hc e (.inr he)) hdeferred
  · refine map_eq_map_of_imp hproperties fun p' hp' p hp hline => ?_
    have hp := mem_properties_of_mem_allProperties hp
    have hp' := mem_properties_of_mem_allProperties hp'
    obtain ⟨hname, htype, hcardinality⟩ := ho.eq_of_property_text_eq ho' hp hp' hline
    rw [derivedProperty, derivedProperty, hname, hcardinality, hsee p hp p' hp' htype]

/-- Packages with one block are derived alike. -/
theorem derivedPackage_eq (ho : o.Legible) (ho' : o'.Legible) {q q' : Package} (hq : q ∈ o.packages)
    (hq' : q' ∈ o'.packages) (h : o'.packageBlock q' = o.packageBlock q) :
    o'.derivedPackage q' = o.derivedPackage q := by
  have hname : q'.name = q.name := congrArg (fun b => b.head.text) h
  have hassociations := congrArg (fun b => b.texts .association) h
  have hexternal := congrArg (fun b => b.texts .external) h
  simp only [texts_association, texts_external] at hassociations hexternal
  have hedges := ImportEdge.set_eq_of_render_eq (ho'.external q' hq') (ho.external q hq) hexternal
  rw [derivedPackage, derivedPackage, hname, hassociations, hedges]

/-- Ontologies with the same blocks have the same derived sets, as far as targets of one name are seen alike. -/
theorem derivedWith_eq (ho : o.Legible) (ho' : o'.Legible) (h : o'.blocks = o.blocks)
    {see : NamedTarget → NamedTarget} (hsee : o.SeenAlike o' see) : o'.derivedWith see = o.derivedWith see := by
  obtain ⟨hclasses, hpackages⟩ := blocks_eq_iff.mp h
  rw [derivedWith, derivedWith, Derived.mk.injEq]
  refine ⟨map_eq_map_of_imp hclasses fun c' hc' c hc hblock => ?_,
    map_eq_map_of_imp hpackages fun q' hq' q hq hblock => ?_⟩
  · exact ho.derivedClass_eq ho' (perm_sortOn.mem_iff.mp hc) (perm_sortOn.mem_iff.mp hc') hblock hsee
  · exact ho.derivedPackage_eq ho' (perm_sortOn.mem_iff.mp hq) (perm_sortOn.mem_iff.mp hq') hblock

/-- Ontologies with the same blocks have the same classes. -/
theorem mem_qualifiedNames_iff (ho : o.Legible) (ho' : o'.Legible) (h : o'.blocks = o.blocks) (name : String) :
    name ∈ o'.classes.map Class.qualifiedName ↔ name ∈ o.classes.map Class.qualifiedName := by
  have hperm (o : Ontology) : ((sortOn Class.qualifiedName o.classes).map Class.qualifiedName).Perm
      (o.classes.map Class.qualifiedName) := perm_sortOn.map _
  have hnames : (sortOn Class.qualifiedName o'.classes).map Class.qualifiedName =
      (sortOn Class.qualifiedName o.classes).map Class.qualifiedName := by
    refine map_eq_map_of_imp (blocks_eq_iff.mp h).1 fun c' hc' c hc hblock => ?_
    exact (ho.head_eq_of_classBlock_eq ho' (perm_sortOn.mem_iff.mp hc) (perm_sortOn.mem_iff.mp hc') hblock).1
  rw [← (hperm o').mem_iff, hnames, (hperm o).mem_iff]

/-- In ontologies with the same blocks types of one name are bound alike, except that enumerations are not told from
names that lead nowhere. -/
theorem seenAlike_blurred (ho : o.Legible) (ho' : o'.Legible) (h : o'.blocks = o.blocks) :
    o.SeenAlike o' .blurred := by
  intro p hp p' hp' hname
  rw [ho'.blurred_target hp', ho.blurred_target hp, hname]
  simp only [NamedTarget.seen, ho.mem_qualifiedNames_iff ho' h]

/-- The names that dangle are those of the targets that lead nowhere. -/
theorem dangles_iff (ho : o.Legible) {name : String} :
    o.Dangles name ↔ ∃ c ∈ o.derived.classes, ∃ p ∈ c.properties, p.target = .unresolved name := by
  constructor
  · rintro ⟨p, hp, htarget⟩
    obtain ⟨c, hc, heffective⟩ := ho.mem_allProperties hp
    refine ⟨_, List.mem_map_of_mem (perm_sortOn.mem_iff.mpr hc), _, List.mem_map_of_mem heffective, ?_⟩
    simp [derivedProperty, htarget, namedTarget]
  · rintro ⟨_, hc, _, hp, htarget⟩
    obtain ⟨c, -, rfl⟩ := List.mem_map.mp hc
    obtain ⟨p, heffective, rfl⟩ := List.mem_map.mp hp
    have hp := mem_properties_of_mem_allProperties heffective
    exact ((ho.namedTarget_eq_unresolved_iff hp).mp htarget).2

/-- Ontologies with the same blocks have the same derived sets exactly if the same names dangle. -/
theorem derived_eq_iff (ho : o.Legible) (ho' : o'.Legible) (h : o'.blocks = o.blocks) :
    o'.derived = o.derived ↔ ∀ name, o'.Dangles name ↔ o.Dangles name := by
  constructor
  · intro hderived name
    rw [ho'.dangles_iff, ho.dangles_iff, hderived]
  · intro hdangles
    refine ho.derivedWith_eq ho' h fun p hp p' hp' hname => ?_
    refine NamedTarget.eq_of_blurred_eq (ho.seenAlike_blurred ho' h p hp p' hp' hname) fun name => ?_
    rw [id, id, ho'.namedTarget_eq_unresolved_iff hp', ho.namedTarget_eq_unresolved_iff hp, hname, hdangles]

end Legible

end Ontology

namespace Schema

variable {s s' : Schema} {o o' : Ontology}

/-- Name and version of a built ontology are those of the schema. -/
theorem name_and_version_of_build (h : s.build = .ok o) : o.name = s.name ∧ o.version = s.version := by
  obtain ⟨ps, -, rfl⟩ := build_eq_ok_iff.mp h
  have hfixed := Ontology.fixed_resolve (.assemble s.name s.version s.doc ps)
  exact ⟨congrArg Ontology.name hfixed, congrArg Ontology.version hfixed⟩

/-- If schemas of one name and version without problems have the same text to hash, they have the same derived sets,
except that enumerations are not told from names that lead nowhere. The sets are the same exactly if the same names
dangle. -/
theorem derived_of_fingerprintText_eq (hs : s.problems = []) (hs' : s'.problems = []) (h : s.build = .ok o)
    (h' : s'.build = .ok o') (hname : s'.name = s.name) (hversion : s'.version = s.version)
    (htext : o'.fingerprintText = o.fingerprintText) :
    o'.derivedWith .blurred = o.derivedWith .blurred ∧
      (o'.derived = o.derived ↔ ∀ name, o'.Dangles name ↔ o.Dangles name) := by
  have ho := legible_of_build hs h
  have ho' := legible_of_build hs' h'
  obtain ⟨honame, hoversion⟩ := name_and_version_of_build h
  obtain ⟨honame', hoversion'⟩ := name_and_version_of_build h'
  have hblocks : o'.blocks = o.blocks :=
    Ontology.blocks_eq_of_fingerprintText_eq (by rw [honame, honame', hname]) (by rw [hoversion, hoversion', hversion])
      ho.notMem_line ho'.notMem_line htext
  exact ⟨ho.derivedWith_eq ho' hblocks (ho.seenAlike_blurred ho' hblocks), ho.derived_eq_iff ho' hblocks⟩

/-- A class with a property whose type is an enumeration of its package, or nothing. -/
def cave (enums : Option DefinitionMap) : Schema :=
  ⟨"cave", "1", "", [⟨"cave", some "Dark.", some (.ofList [("bat", .object [("base", .null),
    ("is_abstract", .boolean false),
    ("properties", .list [.list [.text "hue", .text "cave.shade", .text "0.1"]])])]), enums⟩]⟩

/-- An enumeration of shades. -/
def shades : DefinitionMap :=
  .ofList [("shade", .object [("is_open", .boolean false), ("members", .list [.text "black", .text "brown"])])]

/-- The text to hash for a cave with shades and for one without. -/
def caveText : String :=
  Text.closeLines
    ["cave:1", "class cave.bat base -", "  import cave.shade", "  prop hue cave.shade 0.1", "package cave"]

/-- The text is the same whether the type of the property is an enumeration or leads nowhere. -/
theorem cave_fingerprint : ∃ o o', (cave none).build = .ok o ∧ (cave (some shades)).build = .ok o' ∧
    o.fingerprintText = caveText ∧ o'.fingerprintText = caveText ∧
      o'.derivedWith .blurred = o.derivedWith .blurred ∧ o'.derived ≠ o.derived := by
  have hbuild : ((cave none).build.map fun o => (o.fingerprintText, o.properties.map fun p => p.type.target)) =
      .ok (caveText, [.unresolved "cave.shade"]) := by
    cbv
  have hbuild' : ((cave (some shades)).build.map fun o =>
      (o.fingerprintText, o.properties.map fun p => p.type.target)) = .ok (caveText, [.resolved (.ofEnum ⟨0⟩)]) := by
    cbv
  obtain ⟨o, ho, heq⟩ := Declaration.map_eq_ok.mp hbuild
  obtain ⟨o', ho', heq'⟩ := Declaration.map_eq_ok.mp hbuild'
  simp only [Prod.mk.injEq] at heq heq'
  obtain ⟨hblurred, hderived⟩ := derived_of_fingerprintText_eq (by decide +kernel) (by decide +kernel) ho ho' rfl rfl
    (heq'.1.trans heq.1.symm)
  refine ⟨o, o', ho, ho', heq.1, heq'.1, hblurred, fun hsame => ?_⟩
  have hdangles : o.Dangles "cave.shade" := List.mem_map.mp (heq.2 ▸ List.mem_singleton_self _)
  obtain ⟨p, hp, htarget⟩ := (hderived.mp hsame "cave.shade").mpr hdangles
  have hmem : p.type.target ∈ [TypeTarget.resolved (.ofEnum ⟨0⟩)] := heq'.2 ▸ List.mem_map_of_mem hp
  rw [htarget] at hmem
  exact absurd hmem (by decide)

end Schema

end OntologyCompiler
