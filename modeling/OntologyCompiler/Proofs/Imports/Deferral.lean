import OntologyCompiler.Proofs.Imports.Pairs
import OntologyCompiler.Proofs.Order

/-!
# Deferring imports

Breaking circular imports changes the import sets that later visits test. It is followed by a list of
pairs that are kept: a pair stands for a class that is visited and another one whose import of it is put
off. The imports left are those given less the deferred ones, so the test of a visit is whether both
classes needed each other at the start and neither side is deferred yet.
-/

namespace OntologyCompiler.Ontology

/-- The edge to the class at a position. -/
def edge (o : Ontology) (id : ClassId) : ImportEdge := ((o.class? id).map o.edgeTo).getD default

/-- The imports of the class at a position. -/
def imports (o : Ontology) (id : ClassId) : OrderedSet ImportEdge := ((o.class? id).map Class.imports).getD ∅

/-- The deferred imports of the class at a position. -/
def circularImports (o : Ontology) (id : ClassId) : OrderedSet ImportEdge :=
  ((o.class? id).map Class.circularImports).getD ∅

/-- Two classes import each other. -/
def MutualImport (o : Ontology) (c d : ClassId) : Prop := o.edge d ∈ o.imports c ∧ o.edge c ∈ o.imports d

instance (o : Ontology) : DecidableRel o.MutualImport := fun c d =>
  inferInstanceAs (Decidable (o.edge d ∈ o.imports c ∧ o.edge c ∈ o.imports d))

/-- The finding about a visited class and another one that defers the import of it. -/
def deferFinding (o : Ontology) (pair : ClassId × ClassId) : Diagnostic :=
  .circularImport (o.className pair.2) (o.edge pair.1).render

variable {o o' o'' : Ontology} {c d id : ClassId} {x : Class} {e : ImportEdge}

/-- The edge to a found class. -/
theorem edge_eq (h : o.class? id = some x) : o.edge id = o.edgeTo x := by
  simp [edge, h]

/-- A class with imports is found. -/
theorem class?_of_mem_imports (h : e ∈ o.imports id) : ∃ x, o.class? id = some x := by
  unfold imports at h
  cases hx : o.class? id with
  | none =>
    rw [hx] at h
    exact absurd h OrderedSet.not_mem_empty
  | some x => exact ⟨x, rfl⟩

/-- Edges are in the fixed part. -/
theorem edge_of_fixed_eq (h : o'.fixed = o.fixed) : o'.edge = o.edge := by
  funext id
  rw [edge, edge, edgeTo_of_fixed_eq h, map_class?_of_fixed_eq (fun _ => rfl) h]

/-- A class is known by its edge. -/
theorem Arena.id_eq_of_edge_eq (ho : o.Arena) {y : Class} (hc : o.class? c = some x) (hd : o.class? d = some y)
    (h : o.edge c = o.edge d) : c = d := by
  rw [edge_eq hc, edge_eq hd, edgeTo, edgeTo, ImportEdge.mk.injEq] at h
  apply ho.id_eq_of_className_eq hc hd
  rw [className_eq hc, className_eq hd, ho.class_name hc, ho.class_name hd, h.1, h.2]

/-- A visit of classes that do not import each other changes nothing. -/
theorem deferImport_of_not_mutual (h : ¬ o.MutualImport c d) : o.deferImport (c, d) = o := by
  unfold deferImport
  split
  next x y hx hy =>
    refine if_neg fun hmutual => h ?_
    rw [MutualImport, edge_eq hx, edge_eq hy]
    simpa [imports, show o.class? c = some x from hx, show o.class? d = some y from hy] using hmutual
  next => rfl

/-- What a visit of classes that import each other does. -/
structure DeferStep (o : Ontology) (c d : ClassId) (o' : Ontology) : Prop where
  imports : ∀ id e, e ∈ o'.imports id ↔ e ∈ o.imports id ∧ ¬(id = d ∧ e = o.edge c)
  circularImports : ∀ id e, e ∈ o'.circularImports id ↔ e ∈ o.circularImports id ∨ id = d ∧ e = o.edge c
  diagnostics : o'.diagnostics = o.diagnostics ++ [o.deferFinding (c, d)]

/-- A visit of classes that import each other defers one side. -/
theorem deferImport_of_mutual (h : o.MutualImport c d) : DeferStep o c d (o.deferImport (c, d)) := by
  obtain ⟨x, hx⟩ := class?_of_mem_imports h.1
  obtain ⟨y, hy⟩ := class?_of_mem_imports h.2
  have hxy : o.edgeTo y ∈ x.imports ∧ o.edgeTo x ∈ y.imports := by
    have hmutual := h
    rw [MutualImport, edge_eq hx, edge_eq hy] at hmutual
    simpa [Ontology.imports, hx, hy] using hmutual
  have hstep : o.deferImport (c, d) = (o.modifyClass d fun y =>
      { y with
        imports := y.imports.erase (o.edgeTo x)
        circularImports := y.circularImports.insert (o.edgeTo x) }).report
          (.circularImport y.qualifiedName (o.edgeTo x).render) := by
    simp only [deferImport, hx, hy, if_pos hxy]
  rw [hstep]
  refine ⟨fun id e => ?_, fun id e => ?_, ?_⟩
  · change e ∈ (o.modifyClass d _).imports id ↔ _
    rw [Ontology.imports, class?_modifyClass, edge_eq hx]
    by_cases hid : id = d
    · subst hid
      simp [Ontology.imports, hy, OrderedSet.mem_erase, and_comm]
    · simp [Ontology.imports, hid]
  · change e ∈ (o.modifyClass d _).circularImports id ↔ _
    rw [Ontology.circularImports, class?_modifyClass, edge_eq hx]
    by_cases hid : id = d
    · subst hid
      simp [Ontology.circularImports, hy, OrderedSet.mem_insert, or_comm]
    · simp [Ontology.circularImports, hid]
  · simp only [report, modifyClass, deferFinding, Arena.className_eq hy, edge_eq hx]

/-- The invariant of the visits: exactly the imports of the kept pairs are deferred and reported. -/
structure Deferred (o : Ontology) (kept : List (ClassId × ClassId)) (o' : Ontology) : Prop where
  fixed : o'.fixed = o.fixed
  found : ∀ pair ∈ kept, o.MutualImport pair.1 pair.2
  imports : ∀ d e, e ∈ o'.imports d ↔ e ∈ o.imports d ∧ ∀ c, (c, d) ∈ kept → e ≠ o.edge c
  circularImports : ∀ d e, e ∈ o'.circularImports d ↔ e ∈ o.circularImports d ∨ ∃ c, (c, d) ∈ kept ∧ e = o.edge c
  diagnostics : o'.diagnostics = o.diagnostics ++ kept.map o.deferFinding

namespace Deferred

variable {kept : List (ClassId × ClassId)}

/-- Before the first visit nothing is deferred. -/
theorem start : Deferred o [] o where
  fixed := rfl
  found := fun _ h => nomatch h
  imports := fun d e => by simp
  circularImports := fun d e => by simp
  diagnostics := by simp

/-- One side of an import is left exactly if it was there and is not deferred. -/
theorem mem_imports_iff (h : Deferred o kept o') (ho : o.Arena) {y : Class} (hd : o.class? d = some y) :
    o.edge d ∈ o'.imports c ↔ o.edge d ∈ o.imports c ∧ (d, c) ∉ kept := by
  rw [h.imports]
  refine and_congr_right fun _ => ⟨fun hnot hkept => hnot d hkept rfl, fun hnot b hkept heq => ?_⟩
  obtain ⟨x, hb⟩ := class?_of_mem_imports (h.found _ hkept).1
  exact hnot (ho.id_eq_of_edge_eq hd hb heq ▸ hkept)

/-- Two classes still import each other exactly if they did and neither side is deferred. -/
theorem mutualImport_iff (h : Deferred o kept o') (ho : o.Arena) :
    o'.MutualImport c d ↔ o.MutualImport c d ∧ (c, d) ∉ kept ∧ (d, c) ∉ kept := by
  have hedge : o'.edge = o.edge := edge_of_fixed_eq h.fixed
  rw [MutualImport, hedge]
  refine ⟨fun hmutual => ?_, fun hmutual => ?_⟩
  · have hback := ((h.imports d _).mp hmutual.2)
    have hforth := ((h.imports c _).mp hmutual.1)
    exact ⟨⟨hforth.1, hback.1⟩, fun hkept => hback.2 c hkept rfl, fun hkept => hforth.2 d hkept rfl⟩
  · obtain ⟨⟨hforth, hback⟩, hcd, hdc⟩ := hmutual
    obtain ⟨x, hx⟩ := class?_of_mem_imports hforth
    obtain ⟨y, hy⟩ := class?_of_mem_imports hback
    exact ⟨(h.mem_imports_iff ho hy).mpr ⟨hforth, hdc⟩, (h.mem_imports_iff ho hx).mpr ⟨hback, hcd⟩⟩

/-- A visit that defers an import adds its pair to the kept ones. -/
theorem keep (h : Deferred o kept o') (hrelated : o.MutualImport c d) (hfixed : o''.fixed = o'.fixed)
    (hstep : DeferStep o' c d o'') : Deferred o (kept ++ [(c, d)]) o'' := by
  have hedge : o'.edge = o.edge := edge_of_fixed_eq h.fixed
  have hname : o'.className = o.className := funext (className_of_fixed_eq h.fixed)
  have hmem {a b : ClassId} : (a, b) ∈ kept ++ [(c, d)] ↔ (a, b) ∈ kept ∨ a = c ∧ b = d := by
    rw [List.mem_append, List.mem_singleton, Prod.mk.injEq]
  refine
    { fixed := hfixed.trans h.fixed
      found := fun pair hp => ?_
      imports := fun b e => ?_
      circularImports := fun b e => ?_
      diagnostics := ?_ }
  · rcases List.mem_append.mp hp with hp | hp
    · exact h.found pair hp
    · exact List.mem_singleton.mp hp ▸ hrelated
  · rw [hstep.imports, h.imports, hedge, and_assoc]
    apply and_congr_right
    intro _
    constructor
    · intro hnot a ha
      rcases hmem.mp ha with ha | hnew
      · exact hnot.1 a ha
      · obtain ⟨rfl, rfl⟩ := hnew
        exact fun heq => hnot.2 ⟨rfl, heq⟩
    · intro hnot
      refine ⟨fun a ha => hnot a (hmem.mpr (Or.inl ha)), fun hnew => ?_⟩
      exact hnot c (hmem.mpr (Or.inr ⟨rfl, hnew.1⟩)) hnew.2
  · rw [hstep.circularImports, h.circularImports, hedge, or_assoc]
    apply or_congr_right
    constructor
    · intro hor
      rcases hor with ⟨a, ha, heq⟩ | ⟨rfl, heq⟩
      · exact ⟨a, hmem.mpr (Or.inl ha), heq⟩
      · exact ⟨c, hmem.mpr (Or.inr ⟨rfl, rfl⟩), heq⟩
    · intro hnew
      obtain ⟨a, ha, heq⟩ := hnew
      rcases hmem.mp ha with ha | hsame
      · exact Or.inl ⟨a, ha, heq⟩
      · obtain ⟨rfl, rfl⟩ := hsame
        exact Or.inr ⟨rfl, heq⟩
  · rw [hstep.diagnostics, h.diagnostics, List.map_append, List.append_assoc, List.map_singleton]
    simp only [deferFinding, hedge, hname]

/-- A visit keeps its pair exactly if it defers an import. -/
theorem step (h : Deferred o kept o') (ho : o.Arena) (pair : ClassId × ClassId) :
    Deferred o (keepPair o.MutualImport kept pair) (o'.deferImport pair) := by
  unfold keepPair
  split
  next hkeep =>
    have hmutual : o'.MutualImport pair.1 pair.2 := (h.mutualImport_iff ho).mpr hkeep
    exact h.keep hkeep.1 (fixed_deferImport o' pair) (deferImport_of_mutual hmutual)
  next hkeep =>
    have hnot : ¬ o'.MutualImport pair.1 pair.2 := fun hmutual => hkeep ((h.mutualImport_iff ho).mp hmutual)
    rw [show pair = (pair.1, pair.2) from rfl, deferImport_of_not_mutual hnot]
    exact h

/-- Visits keep the pairs whose imports they defer. -/
theorem foldl (h : Deferred o kept o') (ho : o.Arena) (pairs : List (ClassId × ClassId)) :
    Deferred o (pairs.foldl (keepPair o.MutualImport) kept) (pairs.foldl deferImport o') := by
  induction pairs generalizing kept o' with
  | nil => exact h
  | cons pair pairs ih => exact ih (h.step ho pair)

/-- Breaking circular imports keeps a list of pairs whose imports it defers. -/
theorem breakCircularImports (ho : o.Arena) :
    Deferred o (o.targetPairs.foldl (keepPair o.MutualImport) []) o.breakCircularImports :=
  start.foldl ho o.targetPairs

end Deferred

end OntologyCompiler.Ontology
