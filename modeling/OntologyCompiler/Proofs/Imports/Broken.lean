import Mathlib.Logic.Basic
import OntologyCompiler.Proofs.Imports.Deferral
import OntologyCompiler.Proofs.Inheritance.Cuts
import OntologyCompiler.Proofs.Types

/-!
# Circular imports

What a class needs is the edge to its base and the edges that the types of its own properties name, its
own edge excepted. In a built ontology everything needed is imported or deferred, never both. Of two
classes that need each other exactly one defers: the later one, if the earlier one has a property of its
type, else the one that the other has a property of. Two bases cannot need each other, so there always is
such a property.
-/

namespace OntologyCompiler

namespace Ontology

/-- What a class needs: the edge to its base and the edges named by the types of its own properties, its
own edge excepted. -/
def Needs (o : Ontology) (c : ClassId) (e : ImportEdge) : Prop :=
  e ≠ o.edge c ∧
    ((∃ b, o.base? c = some b ∧ (∃ x, o.class? b = some x) ∧ e = o.edge b) ∨
      ∃ p ∈ o.ownProperties c, p.type.qualifiedParts = some (e.package, e.typeName))

/-- A class has an own property typed by another. -/
def PointsAt (o : Ontology) (c d : ClassId) : Prop := ∃ p ∈ o.ownProperties c, p.type.classId? = some d

variable {o o' : Ontology} {c d : ClassId} {x : Class} {e : ImportEdge}

/-- The own properties of a found class. -/
theorem ownProperties_eq (h : o.class? c = some x) : o.ownProperties c = x.properties.filterMap o.property? := by
  simp [ownProperties, h]

/-- A class with properties is found. -/
theorem class?_of_mem_ownProperties {p : Property} (h : p ∈ o.ownProperties c) : ∃ x, o.class? c = some x := by
  cases hx : o.class? c with
  | none => simp [ownProperties, hx] at h
  | some x => exact ⟨x, rfl⟩

/-- A class with needs is found. -/
theorem class?_of_needs (h : o.Needs c e) : ∃ x, o.class? c = some x := by
  rcases h.2 with ⟨b, hb, -⟩ | ⟨p, hp, -⟩
  · obtain ⟨x, hx, -⟩ := Option.bind_eq_some_iff.mp hb
    exact ⟨x, hx⟩
  · exact class?_of_mem_ownProperties hp

/-- Own properties depend on the fixed part and the properties. -/
theorem ownProperties_congr (hfixed : o'.fixed = o.fixed) (hproperties : o'.properties = o.properties)
    (c : ClassId) :
    o'.ownProperties c = o.ownProperties c := by
  have hproperty : o'.property? = o.property? := by
    funext id
    rw [property?, property?, hproperties]
  rw [ownProperties, ownProperties, hproperty, map_class?_of_fixed_eq (fun _ => rfl) hfixed]

/-- Needs depend on the fixed part, the properties and the bases. -/
theorem needs_congr (hfixed : o'.fixed = o.fixed) (hproperties : o'.properties = o.properties)
    (hbase : ∀ c, o'.base? c = o.base? c) : o'.Needs c e ↔ o.Needs c e := by
  have hfound (b : ClassId) : (∃ x, o'.class? b = some x) ↔ ∃ x, o.class? b = some x := by
    constructor
    · rintro ⟨x, hx⟩
      obtain ⟨base, decodings, imports, circular, hy⟩ := exists_class?_of_fixed_eq hfixed.symm hx
      exact ⟨_, hy⟩
    · rintro ⟨x, hx⟩
      obtain ⟨base, decodings, imports, circular, hy⟩ := exists_class?_of_fixed_eq hfixed hx
      exact ⟨_, hy⟩
  simp only [Needs, edge_of_fixed_eq hfixed, hbase, hfound, ownProperties_congr hfixed hproperties]

/-- What is computed as the imports of a class is what it needs. -/
theorem mem_importsOf (hc : o.class? c = some x) : e ∈ o.importsOf x ↔ o.Needs c e := by
  rw [importsOf, OrderedSet.mem_erase, OrderedSet.mem_ofList, List.mem_append, Needs, edge_eq hc]
  refine and_congr_right fun _ => or_congr ?_ ?_
  · have hbase : o.base? c = x.base := by simp [base?, hc]
    simp only [Option.mem_toList, baseEdge?, Option.map_eq_some_iff, Option.bind_eq_some_iff, hbase]
    constructor
    · rintro ⟨y, ⟨b, hb, hy⟩, he⟩
      exact ⟨b, hb, ⟨y, hy⟩, by rw [edge_eq hy, he]⟩
    · rintro ⟨b, hb, ⟨y, hy⟩, he⟩
      exact ⟨y, ⟨b, hb, hy⟩, by rw [he, edge_eq hy]⟩
  · simp only [propertyEdges, List.mem_filterMap, typeEdge?, Option.map_eq_some_iff, ownProperties_eq hc]
    refine exists_congr fun p => and_congr_right fun _ => ⟨fun h => ?_, fun hparts => ?_⟩
    · obtain ⟨parts, hparts, he⟩ := h
      subst he
      exact hparts
    · exact ⟨_, hparts, rfl⟩

/-- Computed imports are needs. -/
theorem mem_imports_computeImports : e ∈ o.computeImports.imports c ↔ o.Needs c e := by
  have hclass : o.computeImports.class? c =
      (o.class? c).map fun x => { x with imports := o.importsOf x, circularImports := ∅ } := by
    simp [class?, computeImports]
  cases hx : o.class? c with
  | some x =>
    rw [imports, hclass, hx, ← mem_importsOf hx]
    rfl
  | none =>
    rw [imports, hclass, hx]
    apply iff_of_false OrderedSet.not_mem_empty
    intro hneeds
    obtain ⟨x, hsome⟩ := class?_of_needs hneeds
    rw [hx] at hsome
    cases hsome

/-- When imports are computed none is deferred. -/
theorem circularImports_computeImports : o.computeImports.circularImports c = ∅ := by
  simp only [circularImports, class?, computeImports, List.getElem?_map]
  cases o.classes[c.index]? <;> rfl

/-- The visited pairs are a class and another one that its properties point at. -/
theorem mem_targetPairs (ho : o.Arena) : (c, d) ∈ o.targetPairs ↔ o.PointsAt c d ∧ d ≠ c := by
  simp only [targetPairs, classTargets, List.mem_flatMap, List.mem_map, List.mem_filter, List.mem_filterMap,
    decide_eq_true_eq, Prod.mk.injEq, PointsAt]
  constructor
  · rintro ⟨a, -, b, ⟨hpoints, hne⟩, rfl, rfl⟩
    exact ⟨hpoints, hne⟩
  · rintro ⟨⟨p, hp, htype⟩, hne⟩
    exact ⟨c, ho.mem_classesByQualifiedName.mpr (class?_of_mem_ownProperties hp), d, ⟨⟨p, hp, htype⟩, hne⟩, rfl, rfl⟩

/-- The visited pairs are in the order of their first classes. -/
theorem pairwise_targetPairs (ho : o.Arena) :
    o.targetPairs.Pairwise fun p q => p.1 = q.1 ∨ o.Precedes p.1 q.1 := by
  refine List.pairwise_flatMap.mpr ⟨fun a _ => ?_, ho.pairwise_classesByQualifiedName.imp fun hab p hp q hq => ?_⟩
  · exact List.pairwise_map.mpr (List.pairwise_of_forall fun _ _ => Or.inl rfl)
  · obtain ⟨_, -, rfl⟩ := List.mem_map.mp hp
    obtain ⟨_, -, rfl⟩ := List.mem_map.mp hq
    exact Or.inr hab

/-- Classes that import each other by need are in order. -/
theorem pairOrder_mutualImport (ho : o.Arena) (hneeds : ∀ c e, e ∈ o.imports c → o.Needs c e) :
    PairOrder o.MutualImport o.Precedes where
  symm := fun h => ⟨h.2, h.1⟩
  asymm := Precedes.asymm
  total := by
    intro a b h
    obtain ⟨x, hx⟩ := class?_of_mem_imports h.1
    obtain ⟨y, hy⟩ := class?_of_mem_imports h.2
    apply ho.precedes_or_precedes hx hy
    intro hab
    exact (hneeds a _ h.1).1 (hab ▸ rfl)

/-- An ontology is resolved from one that has its imports computed by breaking the circular ones. -/
structure BrokenFrom (b o : Ontology) : Prop where
  arena : b.Arena
  fixed : o.fixed = b.fixed
  properties : o.properties = b.properties
  base? : ∀ c, o.base? c = b.base? c
  classes : o.classes = b.breakCircularImports.classes
  imports : ∀ c e, e ∈ b.imports c ↔ b.Needs c e
  circularImports : ∀ c, b.circularImports c = ∅
  unreported : b.diagnostics.withCode .circularImport = []
  reported : o.diagnostics.withCode .circularImport =
    b.breakCircularImports.diagnostics.withCode .circularImport

/-- The pairs that are kept when circular imports are broken. -/
def keptPairs (o : Ontology) : List (ClassId × ClassId) := o.targetPairs.foldl (keepPair o.MutualImport) []

namespace BrokenFrom

variable {b : Ontology} (hb : b.BrokenFrom o)

include hb

/-- Edges are the same before and after. -/
theorem edge_eq : o.edge = b.edge := edge_of_fixed_eq hb.fixed

/-- What a class needs is what it imports before circular imports are broken. -/
theorem needs_iff : o.Needs c e ↔ e ∈ b.imports c :=
  (needs_congr hb.fixed hb.properties hb.base?).trans (hb.imports c e).symm

/-- Classes import each other before if they need each other. -/
theorem mutualImport_iff : b.MutualImport d c ↔ o.Needs c (o.edge d) ∧ o.Needs d (o.edge c) := by
  rw [hb.needs_iff, hb.needs_iff, hb.edge_eq]
  exact and_comm

/-- The visited pairs are a class and another one that its properties point at. -/
theorem mem_targetPairs_iff : (c, d) ∈ b.targetPairs ↔ o.PointsAt c d ∧ d ≠ c := by
  rw [mem_targetPairs hb.arena, PointsAt, PointsAt, ownProperties_congr hb.fixed hb.properties]

/-- Classes that import each other before are in order. -/
theorem pairOrder : PairOrder b.MutualImport b.Precedes :=
  pairOrder_mutualImport hb.arena fun c e => (hb.imports c e).mp

/-- The kept pairs are those visited first. -/
theorem keptFirst : KeptFirst b.MutualImport b.Precedes b.targetPairs b.keptPairs :=
  KeptFirst.nil.foldl hb.pairOrder (pairwise_targetPairs hb.arena)

/-- What a class imports after is what it needs and does not defer. -/
theorem mem_imports_iff : e ∈ o.imports c ↔ o.Needs c e ∧ ∀ d, (d, c) ∈ b.keptPairs → e ≠ o.edge d := by
  rw [Ontology.imports, class?, hb.classes, hb.edge_eq, hb.needs_iff]
  exact (Deferred.breakCircularImports hb.arena).imports c e

/-- What a class defers are the edges to the first classes of its kept pairs. -/
theorem mem_circularImports_iff : e ∈ o.circularImports c ↔ ∃ d, (d, c) ∈ b.keptPairs ∧ e = o.edge d := by
  rw [Ontology.circularImports, class?, hb.classes, hb.edge_eq]
  refine ((Deferred.breakCircularImports hb.arena).circularImports c e).trans (or_iff_right ?_)
  rw [hb.circularImports]
  exact OrderedSet.not_mem_empty

/-- The circular imports that are found are the kept pairs. -/
theorem withCode_eq : o.diagnostics.withCode .circularImport = b.keptPairs.map o.deferFinding := by
  have hcodes : ∀ d ∈ b.keptPairs.map b.deferFinding, d.code = .circularImport := by
    intro d hd
    obtain ⟨pair, -, rfl⟩ := List.mem_map.mp hd
    rfl
  have hfinding : o.deferFinding = b.deferFinding := by
    funext pair
    rw [deferFinding, deferFinding, hb.edge_eq, className_of_fixed_eq hb.fixed]
  rw [hb.reported, (Deferred.breakCircularImports hb.arena).diagnostics, hfinding, Diagnostics.withCode_append,
    hb.unreported, List.nil_append]
  exact Diagnostics.withCode_eq_self hcodes

/-- A pair is kept if its classes need each other, the first points at the second, and comes before it or is
not pointed at. -/
theorem mem_keptPairs_iff : (c, d) ∈ b.keptPairs ↔ o.Needs c (o.edge d) ∧ o.Needs d (o.edge c) ∧
    o.PointsAt c d ∧ (o.Precedes c d ∨ ¬ o.PointsAt d c) := by
  have hprecedes : o.Precedes c d ↔ b.Precedes c d := precedes_of_fixed_eq hb.fixed
  rw [hb.keptFirst.mem_iff, hprecedes]
  constructor
  · intro hfirst
    have hne := hb.pairOrder.ne hfirst.related
    obtain ⟨hdc, hcd⟩ := hb.mutualImport_iff.mp hfirst.related
    refine ⟨hcd, hdc, (hb.mem_targetPairs_iff.mp hfirst.mem).1, hfirst.first.imp_right fun hnot hpoints => ?_⟩
    exact hnot (hb.mem_targetPairs_iff.mpr ⟨hpoints, hne⟩)
  · rintro ⟨hcd, hdc, hpoints, hrule⟩
    have hrelated := hb.mutualImport_iff.mpr ⟨hdc, hcd⟩
    have hne := hb.pairOrder.ne hrelated
    refine ⟨hrelated, hb.mem_targetPairs_iff.mpr ⟨hpoints, hne.symm⟩, hrule.imp_right fun hnot hmem => ?_⟩
    exact hnot (hb.mem_targetPairs_iff.mp hmem).1

end BrokenFrom

/-- The pairs that are kept when circular imports are broken, in terms of the broken ontology: the second
class of a pair defers its import of the first. -/
structure KeptPairs (o : Ontology) (kept : List (ClassId × ClassId)) : Prop where
  imports : ∀ c e, e ∈ o.imports c ↔ o.Needs c e ∧ ∀ d, (d, c) ∈ kept → e ≠ o.edge d
  circularImports : ∀ c e, e ∈ o.circularImports c ↔ ∃ d, (d, c) ∈ kept ∧ e = o.edge d
  rule : ∀ c d, (d, c) ∈ kept ↔ o.Needs c (o.edge d) ∧ o.Needs d (o.edge c) ∧
    (o.Precedes d c ∧ o.PointsAt d c ∨ o.Precedes c d ∧ ¬ o.PointsAt c d)
  asymm : ∀ c d, (c, d) ∈ kept → (d, c) ∉ kept
  total : ∀ c d, o.Needs c (o.edge d) → o.Needs d (o.edge c) → (c, d) ∈ kept ∨ (d, c) ∈ kept
  nodup : kept.Nodup
  reported : o.diagnostics.withCode .circularImport = kept.map o.deferFinding

namespace KeptPairs

variable {kept : List (ClassId × ClassId)}

/-- What is needed is imported or deferred. -/
theorem mem_or_mem_iff (h : o.KeptPairs kept) : (e ∈ o.imports c ∨ e ∈ o.circularImports c) ↔ o.Needs c e := by
  rw [h.imports, h.circularImports]
  refine ⟨fun hor => ?_, fun hneeds => ?_⟩
  · rcases hor with ⟨hneeds, -⟩ | ⟨d, hd, heq⟩
    · exact hneeds
    · exact heq ▸ ((h.rule c d).mp hd).1
  · by_cases hd : ∃ d, (d, c) ∈ kept ∧ e = o.edge d
    · exact Or.inr hd
    · exact Or.inl ⟨hneeds, fun d hkept heq => hd ⟨d, hkept, heq⟩⟩

/-- The edge to a class is deferred exactly if its pair is kept. -/
theorem edge_mem_circularImports_iff (h : o.KeptPairs kept) (ho : o.Arena) (hd : o.class? d = some x) :
    o.edge d ∈ o.circularImports c ↔ (d, c) ∈ kept := by
  rw [h.circularImports]
  refine ⟨fun h' => ?_, fun hkept => ⟨d, hkept, rfl⟩⟩
  obtain ⟨a, ha, heq⟩ := h'
  obtain ⟨y, hy⟩ := class?_of_needs ((h.rule c a).mp ha).2.1
  exact ho.id_eq_of_edge_eq hd hy heq ▸ ha

/-- No two classes are left that import each other. -/
theorem not_mutualImport (h : o.KeptPairs kept) : ¬ o.MutualImport c d := by
  intro hmutual
  obtain ⟨hcd, hcd'⟩ := (h.imports c _).mp hmutual.1
  obtain ⟨hdc, hdc'⟩ := (h.imports d _).mp hmutual.2
  rcases h.total c d hcd hdc with hkept | hkept
  · exact hdc' c hkept rfl
  · exact hcd' d hkept rfl

/-- Of two classes that need each other one pair is kept. -/
theorem existsUnique_pair (h : o.KeptPairs kept) (hcd : o.Needs c (o.edge d)) (hdc : o.Needs d (o.edge c)) :
    ∃! pair, pair ∈ kept ∧ (pair = (c, d) ∨ pair = (d, c)) := by
  rcases h.total c d hcd hdc with hkept | hkept
  · refine ⟨(c, d), ⟨hkept, Or.inl rfl⟩, fun pair hpair => hpair.2.resolve_right fun heq => ?_⟩
    exact h.asymm c d hkept (heq ▸ hpair.1)
  · refine ⟨(d, c), ⟨hkept, Or.inr rfl⟩, fun pair hpair => hpair.2.resolve_left fun heq => ?_⟩
    exact h.asymm d c hkept (heq ▸ hpair.1)

end KeptPairs

/-- What an ontology with broken circular imports is: the needs of a class are split into imports and
deferred imports, of two classes that need each other exactly one defers, by the rule that `deferred`
states, and each such pair is found once. -/
structure CircularImportsBroken (o : Ontology) : Prop where
  disjoint : ∀ c e, e ∈ o.imports c → e ∉ o.circularImports c
  union : ∀ c e, (e ∈ o.imports c ∨ e ∈ o.circularImports c) ↔ o.Needs c e
  own : ∀ c, o.edge c ∉ o.imports c ∧ o.edge c ∉ o.circularImports c
  deferred : ∀ c e, e ∈ o.circularImports c ↔ ∃ d, (∃ x, o.class? d = some x) ∧ e = o.edge d ∧
    o.Needs c (o.edge d) ∧ o.Needs d (o.edge c) ∧
      (o.Precedes d c ∧ o.PointsAt d c ∨ o.Precedes c d ∧ ¬ o.PointsAt c d)
  one_sided : ∀ c d, ¬ o.MutualImport c d
  one_deferred : ∀ c d, o.Needs c (o.edge d) → o.Needs d (o.edge c) →
    Xor (o.edge d ∈ o.circularImports c) (o.edge c ∈ o.circularImports d)
  found : ∃ pairs : List (ClassId × ClassId),
    o.diagnostics.withCode .circularImport = pairs.map o.deferFinding ∧ pairs.Nodup ∧
      (∀ c d, (c, d) ∈ pairs ↔ (∃ x, o.class? c = some x) ∧ o.edge c ∈ o.circularImports d) ∧
        ∀ c d, o.Needs c (o.edge d) → o.Needs d (o.edge c) →
          ∃! pair, pair ∈ pairs ∧ (pair = (c, d) ∨ pair = (d, c))

end Ontology

namespace Schema

variable {s : Schema} {o : Ontology} {c d : ClassId} {x : Class}

/-- A built ontology has its circular imports broken. -/
theorem exists_brokenFrom_of_build (h : s.build = .ok o) : ∃ b : Ontology, b.BrokenFrom o := by
  obtain ⟨ps, hps, rfl⟩ := build_eq_ok_iff.mp h
  let a : Ontology := .assemble s.name s.version s.doc ps
  let t := a.bindBases.cutInheritanceCycles.bindTypes
  have hfixed : t.computeImports.fixed = a.fixed := by
    rw [Ontology.fixed_computeImports, Ontology.fixed_bindTypes, Ontology.fixed_cutInheritanceCycles,
      Ontology.fixed_bindBases]
  have hbase (c : ClassId) : t.computeImports.base? c = t.base? c :=
    Ontology.base?_eq_of_map_base_eq (by simp [Ontology.computeImports, Function.comp_def]) c
  refine ⟨t.computeImports,
    { arena := (arena_of_declarations hps).of_fixed_eq hfixed
      fixed := (Ontology.fixed_resolve a).trans hfixed.symm
      properties := Ontology.properties_breakCircularImports _
      base? := Ontology.base?_breakCircularImports _
      classes := rfl
      imports := fun c e => ?_
      circularImports := fun c => Ontology.circularImports_computeImports
      unreported := Ontology.withCode_circularImport_computeImports a
      reported := Ontology.withCode_circularImport_resolve a }⟩
  rw [Ontology.mem_imports_computeImports]
  exact (Ontology.needs_congr (Ontology.fixed_computeImports t) rfl hbase).symm

/-- A class that needs another has it as base or a property of its type. -/
theorem base_or_pointsAt_of_needs (h : s.build = .ok o) (hd : o.class? d = some x)
    (hneeds : o.Needs c (o.edge d)) : o.base? c = some d ∨ o.PointsAt c d := by
  have ho := arena_of_build h
  rcases hneeds.2 with ⟨b, hb, ⟨y, hy⟩, heq⟩ | ⟨p, hp, hparts⟩
  · exact Or.inl (ho.id_eq_of_edge_eq hd hy heq ▸ hb)
  · refine Or.inr ⟨p, hp, ?_⟩
    have hname : p.type.name = x.qualifiedName := by
      rw [eq_append_of_splitQualified hparts, Ontology.edge_eq hd, ho.class_name hd]
      rfl
    have hindex : o.index.get? p.type.name = some (.ofClass d) := ho.index_class.mpr ⟨x, hd, hname.symm⟩
    obtain ⟨y, hy⟩ := Ontology.class?_of_mem_ownProperties hp
    rw [Ontology.ownProperties_eq hy] at hp
    obtain ⟨id, -, hid⟩ := List.mem_filterMap.mp hp
    have htarget := target_eq_of_build h (List.mem_of_getElem? hid) hparts hindex
    rw [ValueType.classId?, htarget]

/-- Of two classes that need each other one has a property of the type of the other: both cannot be bases. -/
theorem pointsAt_or_pointsAt_of_needs (h : s.build = .ok o) (hcd : o.Needs c (o.edge d))
    (hdc : o.Needs d (o.edge c)) : o.PointsAt c d ∨ o.PointsAt d c := by
  obtain ⟨x, hx⟩ := Ontology.class?_of_needs hcd
  obtain ⟨y, hy⟩ := Ontology.class?_of_needs hdc
  rcases base_or_pointsAt_of_needs h hy hcd with hbase | hpoints
  · rcases base_or_pointsAt_of_needs h hx hdc with hbase' | hpoints
    · exact absurd (.tail (.single hbase) hbase') (not_transGen_base_of_build h c)
    · exact Or.inr hpoints
  · exact Or.inl hpoints

/-- Of two classes that need each other one pair is kept when circular imports are broken. -/
theorem mem_keptPairs_or_mem_keptPairs {b : Ontology} (hb : b.BrokenFrom o) (h : s.build = .ok o)
    (hcd : o.Needs c (o.edge d)) (hdc : o.Needs d (o.edge c)) : (c, d) ∈ b.keptPairs ∨ (d, c) ∈ b.keptPairs := by
  have hrelated := hb.mutualImport_iff.mpr ⟨hdc, hcd⟩
  have hne := hb.pairOrder.ne hrelated
  have hseen : (c, d) ∈ b.targetPairs ∨ (d, c) ∈ b.targetPairs := by
    rw [hb.mem_targetPairs_iff, hb.mem_targetPairs_iff]
    exact (pointsAt_or_pointsAt_of_needs h hcd hdc).imp (⟨·, hne.symm⟩) (⟨·, hne⟩)
  rw [hb.keptFirst.mem_iff, hb.keptFirst.mem_iff]
  exact hb.pairOrder.seenFirst_or_seenFirst hrelated hseen

/-- Of two classes that need each other the later one defers, if the earlier one points at it, else the one
that the other points at. -/
theorem mem_keptPairs_iff_rule {b : Ontology} (hb : b.BrokenFrom o) (h : s.build = .ok o) :
    (d, c) ∈ b.keptPairs ↔ o.Needs c (o.edge d) ∧ o.Needs d (o.edge c) ∧
      (o.Precedes d c ∧ o.PointsAt d c ∨ o.Precedes c d ∧ ¬ o.PointsAt c d) := by
  rw [hb.mem_keptPairs_iff]
  constructor
  · rintro ⟨hdc, hcd, hpoints, hrule⟩
    refine ⟨hcd, hdc, ?_⟩
    have horder : o.Precedes d c ∨ o.Precedes c d := by
      rw [Ontology.precedes_of_fixed_eq hb.fixed, Ontology.precedes_of_fixed_eq hb.fixed]
      exact hb.pairOrder.total (hb.mutualImport_iff.mpr ⟨hcd, hdc⟩)
    rcases hrule with hbefore | hnot
    · exact Or.inl ⟨hbefore, hpoints⟩
    · exact horder.imp (⟨·, hpoints⟩) (⟨·, hnot⟩)
  · rintro ⟨hcd, hdc, hrule⟩
    refine ⟨hdc, hcd, ?_⟩
    rcases hrule with ⟨hbefore, hpoints⟩ | ⟨-, hnot⟩
    · exact ⟨hpoints, Or.inl hbefore⟩
    · exact ⟨(pointsAt_or_pointsAt_of_needs h hcd hdc).resolve_left hnot, Or.inr hnot⟩

/-- A built ontology has its circular imports broken by a list of kept pairs. -/
theorem exists_keptPairs_of_build (h : s.build = .ok o) : ∃ kept, o.KeptPairs kept := by
  obtain ⟨b, hb⟩ := exists_brokenFrom_of_build h
  have hasymm (c d : ClassId) (hcd : (c, d) ∈ b.keptPairs) : (d, c) ∉ b.keptPairs := by
    rw [hb.keptFirst.mem_iff] at hcd ⊢
    exact hcd.asymm hb.pairOrder
  exact ⟨b.keptPairs,
    { imports := fun c e => hb.mem_imports_iff
      circularImports := fun c e => hb.mem_circularImports_iff
      rule := fun c d => mem_keptPairs_iff_rule hb h
      asymm := hasymm
      total := fun c d => mem_keptPairs_or_mem_keptPairs hb h
      nodup := hb.keptFirst.nodup
      reported := hb.withCode_eq }⟩

/-- Every built ontology has its circular imports broken, exactly one side of every pair of classes that
need each other being deferred. -/
theorem circular_imports_broken (h : s.build = .ok o) : o.CircularImportsBroken := by
  obtain ⟨kept, hkept⟩ := exists_keptPairs_of_build h
  have ho := arena_of_build h
  refine
    { disjoint := fun c e hin hout => ?_
      union := fun c e => hkept.mem_or_mem_iff
      own := fun c => ⟨fun hin => ?_, fun hout => ?_⟩
      deferred := fun c e => ?_
      one_sided := fun c d => hkept.not_mutualImport
      one_deferred := fun c d hcd hdc => ?_
      found := ⟨kept, hkept.reported, hkept.nodup, fun c d => ?_, fun c d => hkept.existsUnique_pair⟩ }
  · obtain ⟨d, hd, heq⟩ := (hkept.circularImports c e).mp hout
    exact ((hkept.imports c e).mp hin).2 d hd heq
  · exact (hkept.mem_or_mem_iff.mp (Or.inl hin)).1 rfl
  · exact (hkept.mem_or_mem_iff.mp (Or.inr hout)).1 rfl
  · rw [hkept.circularImports]
    refine exists_congr fun d => ⟨fun ⟨hd, heq⟩ => ?_, fun ⟨_, heq, hd⟩ => ⟨(hkept.rule c d).mpr hd, heq⟩⟩
    have hrule := (hkept.rule c d).mp hd
    exact ⟨Ontology.class?_of_needs hrule.2.1, heq, hrule⟩
  · obtain ⟨x, hx⟩ := Ontology.class?_of_needs hcd
    obtain ⟨y, hy⟩ := Ontology.class?_of_needs hdc
    rw [hkept.edge_mem_circularImports_iff ho hx, hkept.edge_mem_circularImports_iff ho hy]
    rcases hkept.total c d hcd hdc with hmem | hmem
    · exact Or.inr ⟨hmem, hkept.asymm c d hmem⟩
    · exact Or.inl ⟨hmem, hkept.asymm d c hmem⟩
  · refine ⟨fun hmem => ?_, fun ⟨⟨x, hx⟩, hout⟩ => (hkept.edge_mem_circularImports_iff ho hx).mp hout⟩
    obtain ⟨x, hx⟩ := Ontology.class?_of_needs ((hkept.rule d c).mp hmem).2.1
    exact ⟨⟨x, hx⟩, (hkept.edge_mem_circularImports_iff ho hx).mpr hmem⟩

/-- A schema of one package whose classes have the given bases and property types. -/
def meadow (classes : List (String × Json × List (String × String))) : Schema :=
  ⟨"meadow", "1", "", [⟨"net", some "", some (.ofList (classes.map fun (name, base, properties) =>
    (name, .object [("base", base), ("properties", .list (properties.map fun (property, type) =>
      .list [.text property, .text type, .text "0.1"]))]))), none⟩]⟩

/-- Two classes with properties of each other's type, of which the later one defers, and an earlier class
that defers the import of its base. -/
theorem meadow_circular_imports_broken :
    ∃ o, (meadow [("ant", .null, [("hill", "net.hill")]), ("bee", .text "net.moth", []),
        ("hill", .null, [("queen", "net.ant")]), ("moth", .null, [("guest", "net.bee")])]).build = .ok o ∧
      o.CircularImportsBroken ∧
        o.classes.map (fun c =>
          (c.imports.toList.map ImportEdge.render, c.circularImports.toList.map ImportEdge.render)) =
            [(["net.hill"], []), ([], ["net.moth"]), ([], ["net.ant"]), (["net.bee"], [])] ∧
          o.diagnostics.map Diagnostic.entity = ["net.hill", "net.bee"] := by
  have hbuild : ((meadow [("ant", .null, [("hill", "net.hill")]), ("bee", .text "net.moth", []),
      ("hill", .null, [("queen", "net.ant")]), ("moth", .null, [("guest", "net.bee")])]).build.map fun o =>
        (o.classes.map (fun c =>
          (c.imports.toList.map ImportEdge.render, c.circularImports.toList.map ImportEdge.render)),
          o.diagnostics.map Diagnostic.entity)) =
      .ok ([(["net.hill"], []), ([], ["net.moth"]), ([], ["net.ant"]), (["net.bee"], [])],
        ["net.hill", "net.bee"]) := by
    cbv
  obtain ⟨o, ho, heq⟩ := Declaration.map_eq_ok.mp hbuild
  obtain ⟨himports, hentities⟩ := Prod.mk.inj heq
  exact ⟨o, ho, circular_imports_broken ho, himports, hentities⟩

end Schema

end OntologyCompiler
