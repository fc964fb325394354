import Mathlib
import OntologyCompiler.Proofs.Inheritance.Cycle
import OntologyCompiler.Proofs.Order
import OntologyCompiler.Proofs.Passes

/-!
# Cutting inheritance cycles

A declared base leads to a class exactly if it is the qualified name of one. Classes are visited by
qualified name, and a class loses its base exactly if it is the least one of a cycle of declared bases.
The invariant of the visits is that the least classes met so far are cut and all other bases are as
declared: a cycle whose least class is still to come is whole, and one whose least class is behind is
open. So every cycle is cut and reported once, and nothing else is.
-/

namespace OntologyCompiler

namespace Ontology

/-- The class that the declared base of a class names. -/
def declaredBase? (o : Ontology) (id : ClassId) : Option ClassId :=
  (o.class? id).bind fun c => c.declaredBase.bind fun name =>
    (o.classes.find? fun d => d.qualifiedName = name).map Class.id

/-- The cycle of declared bases from a class that is the least one on it. -/
structure LeastCycle (o : Ontology) (c : ClassId) (l : List ClassId) : Prop where
  cycle : CycleFrom o.declaredBase? c l
  least : ∀ d ∈ l, d = c ∨ o.Precedes c d

/-- The finding about a cycle. -/
def cycleFinding (o : Ontology) (cut : ClassId × List ClassId) : Diagnostic :=
  .inheritanceCycle (o.className cut.1) (o.className cut.1 :: cut.2.map o.className)

variable {o o' : Ontology} {c d id : ClassId} {l : List ClassId}

/-- A declared base belongs to a found class. -/
theorem class?_of_declaredBase? (h : o.declaredBase? c = some d) : ∃ x, o.class? c = some x := by
  obtain ⟨x, hx, -⟩ := Option.bind_eq_some_iff.mp h
  exact ⟨x, hx⟩

/-- Declared bases are in the fixed part. -/
theorem declaredBase?_of_fixed_eq (h : o'.fixed = o.fixed) : o'.declaredBase? = o.declaredBase? := by
  have hfixed (o : Ontology) : o.fixed.declaredBase? = o.declaredBase? := by
    funext id
    simp only [declaredBase?, class?, fixed, List.getElem?_map, List.find?_map, Option.bind_map, Option.map_map]
    rfl
  rw [← hfixed o', h, hfixed]

/-- Findings about cycles speak of the fixed part. -/
theorem cycleFinding_of_fixed_eq (h : o'.fixed = o.fixed) : o'.cycleFinding = o.cycleFinding := by
  have hname : o'.className = o.className := funext (className_of_fixed_eq h)
  funext cut
  simp only [cycleFinding, hname]

/-- Least cycles are in the fixed part. -/
theorem leastCycle_of_fixed_eq (h : o'.fixed = o.fixed) : o'.LeastCycle c l ↔ o.LeastCycle c l := by
  constructor
  · intro hl
    exact ⟨declaredBase?_of_fixed_eq h ▸ hl.cycle,
      fun d hd => (hl.least d hd).imp_right (precedes_of_fixed_eq h).mp⟩
  · intro hl
    exact ⟨(declaredBase?_of_fixed_eq h).symm ▸ hl.cycle,
      fun d hd => (hl.least d hd).imp_right (precedes_of_fixed_eq h).mpr⟩

/-- The index leads from a name to the class that a search finds. -/
theorem Arena.classNamed_eq (ho : o.Arena) (name : String) :
    classNamed o.index name = (o.classes.find? fun d => d.qualifiedName = name).map Class.id := by
  have hnamed {id : ClassId} : classNamed o.index name = some id ↔ o.index.get? name = some (.ofClass id) := by
    unfold classNamed
    split
    next heq => simp [heq]
    next hne =>
      constructor
      · intro h
        cases h
      · exact fun h => absurd h (hne id)
  ext id
  have hfound {x : Class} : (o.classes.find? fun d => d.qualifiedName = name) = some x ↔
      x ∈ o.classes ∧ x.qualifiedName = name :=
    find?_eq_some_iff_key ho.class_names_nodup fun _ _ => decide_eq_true_iff
  rw [hnamed, ho.index_class, Option.map_eq_some_iff]
  constructor
  · intro hall
    obtain ⟨x, hx, hname⟩ := hall
    exact ⟨x, hfound.mpr ⟨mem_of_class? hx, hname⟩, ho.class_id hx⟩
  · intro hall
    obtain ⟨x, hx, rfl⟩ := hall
    obtain ⟨hmem, hname⟩ := hfound.mp hx
    exact ⟨x, ho.class?_of_mem hmem, hname⟩

/-- Binding bases gives every class its declared base. -/
theorem Arena.base?_bindBases (ho : o.Arena) (id : ClassId) : o.bindBases.base? id = o.declaredBase? id := by
  simp only [base?, class?, bindBases, List.getElem?_map, declaredBase?, Option.bind_map]
  apply Option.bind_congr
  intro c _
  exact Option.bind_congr fun name _ => ho.classNamed_eq name

/-- Of found classes one is the least. -/
theorem Arena.exists_least (ho : o.Arena) (hne : l ≠ []) (hl : ∀ d ∈ l, ∃ x, o.class? d = some x) :
    ∃ c ∈ l, ∀ d ∈ l, d = c ∨ o.Precedes c d := by
  induction l with
  | nil => exact absurd rfl hne
  | cons a l ih =>
    rcases eq_or_ne l [] with rfl | hl'
    · exact ⟨a, List.mem_cons_self, fun d hd => Or.inl (List.mem_singleton.mp hd)⟩
    · obtain ⟨c, hc, hleast⟩ := ih hl' fun d hd => hl d (List.mem_cons_of_mem a hd)
      obtain ⟨x, hx⟩ := hl a List.mem_cons_self
      obtain ⟨y, hy⟩ := hl c (List.mem_cons_of_mem a hc)
      rcases eq_or_ne a c with rfl | hac
      · exact ⟨a, List.mem_cons_self, fun d hd => (List.mem_cons.mp hd).elim Or.inl (hleast d)⟩
      · rcases ho.precedes_or_precedes hx hy hac with h | h
        · refine ⟨a, List.mem_cons_self, fun d hd => ?_⟩
          rcases List.mem_cons.mp hd with heq | hd
          · exact Or.inl heq
          · rcases hleast d hd with rfl | hcd
            · exact Or.inr h
            · exact Or.inr (h.trans hcd)
        · refine ⟨c, List.mem_cons_of_mem a hc, fun d hd => ?_⟩
          rcases List.mem_cons.mp hd with rfl | hd
          · exact Or.inr h
          · exact hleast d hd

/-- Every cycle of declared bases has a least class, from which it can be started. -/
theorem Arena.exists_leastCycle (ho : o.Arena) (h : CycleFrom o.declaredBase? c l) :
    ∃ d ∈ l, ∃ m, o.LeastCycle d m ∧ m.Perm l := by
  have hfound : ∀ d ∈ l, ∃ x, o.class? d = some x := by
    intro d hd
    obtain ⟨e, he⟩ := h.isSome_of_mem hd
    exact class?_of_declaredBase? he
  obtain ⟨d, hd, hleast⟩ := ho.exists_least h.ne_nil hfound
  obtain ⟨m, hm, hperm⟩ := h.rotate hd
  exact ⟨d, hd, m, ⟨hm, fun e he => hleast e (hperm.mem_iff.mp he)⟩, hperm⟩

/-- A cycle has one least class and is listed once from there. -/
theorem LeastCycle.unique {m : List ClassId} (h : o.LeastCycle c l) (h' : o.LeastCycle d m) (hperm : l.Perm m) :
    c = d ∧ l = m := by
  have hsame : c = d := by
    -- each of the two least classes is on the cycle of the other
    rcases h'.least c (hperm.mem_iff.mp h.cycle.start_mem) with heq | hdc
    · exact heq
    · rcases h.least d (hperm.mem_iff.mpr h'.cycle.start_mem) with heq | hcd
      · exact heq.symm
      · exact absurd hdc hcd.asymm
  subst hsame
  exact ⟨rfl, h.cycle.unique h'.cycle⟩

/-- A cut takes the base of one class. -/
theorem base?_modifyClass_base_none :
    (o.modifyClass id fun c => { c with base := none }).base? c = if c = id then none else o.base? c := by
  simp only [base?, class?_modifyClass]
  split
  next => cases o.class? id <;> rfl
  next => rfl

/-- The invariant of the visits: the least classes of cycles among those visited are cut and reported, all
other bases are as declared. -/
structure CutUpTo (o : Ontology) (done : List ClassId) (o' : Ontology) : Prop where
  fixed : o'.fixed = o.fixed
  cut : ∀ {c l}, c ∈ done → o.LeastCycle c l → o'.base? c = none
  kept : ∀ {c}, (∀ l, c ∈ done → ¬ o.LeastCycle c l) → o'.base? c = o.declaredBase? c
  found : ∃ cuts : List (ClassId × List ClassId),
    o'.diagnostics = o.diagnostics ++ cuts.map o.cycleFinding ∧
      (cuts.map Prod.fst).Sublist done ∧ ∀ c l, (c, l) ∈ cuts ↔ c ∈ done ∧ o.LeastCycle c l

namespace CutUpTo

variable {done rest : List ClassId}

/-- Before the first visit bases are as declared. -/
theorem start (hbase : ∀ c, o.base? c = o.declaredBase? c) : CutUpTo o [] o where
  fixed := rfl
  cut := fun h => nomatch h
  kept := fun _ => hbase _
  found := ⟨[], by simp, by simp, by simp⟩

/-- A class that still has a base has the declared one. -/
theorem base?_eq_of_some (h : CutUpTo o done o') (hd : o'.base? c = some d) :
    o'.base? c = o.declaredBase? c := by
  apply h.kept
  intro l hc hl
  rw [h.cut hc hl] at hd
  cases hd

/-- A cycle of bases left is one of declared bases. -/
theorem cycleFrom_declared (h : CutUpTo o done o') (hl : CycleFrom o'.base? c l) :
    CycleFrom o.declaredBase? c l := by
  apply hl.congr
  intro x hx
  obtain ⟨y, hy⟩ := hl.isSome_of_mem hx
  exact (h.base?_eq_of_some hy).symm

/-- A visited class is the start of a cycle of bases left exactly if it is the least of a declared one. -/
theorem cycleFrom_iff (h : CutUpTo o done o') (ho : o.Arena) (hbefore : ∀ c ∈ done, o.Precedes c id)
    (hafter : ∀ c x, o.class? c = some x → o.Precedes c id → c ∈ done) :
    CycleFrom o'.base? id l ↔ o.LeastCycle id l := by
  constructor
  · intro hl
    have hdeclared := h.cycleFrom_declared hl
    obtain ⟨c, hc, m, hm, hperm⟩ := ho.exists_leastCycle hdeclared
    rcases hm.least id (hperm.mem_iff.mpr hdeclared.start_mem) with rfl | hprecedes
    · rwa [hdeclared.unique hm.cycle]
    · -- the least class would be behind, and the cycle open there
      obtain ⟨d, hd⟩ := hdeclared.isSome_of_mem hc
      obtain ⟨x, hx⟩ := class?_of_declaredBase? hd
      obtain ⟨e, he⟩ := hl.isSome_of_mem hc
      rw [h.cut (hafter c x hx hprecedes) hm] at he
      cases he
  · intro hl
    refine hl.cycle.congr fun x hx => h.kept fun _ hdone _ => ?_
    rcases hl.least x hx with rfl | hprecedes
    · exact (hbefore x hdone).irrefl
    · exact (hbefore x hdone).asymm hprecedes

/-- A class that is the least of no cycle is visited without a cut. -/
theorem skip (h : CutUpTo o done o') (hno : ∀ l, ¬ o.LeastCycle id l) : CutUpTo o (done ++ [id]) o' := by
  obtain ⟨cuts, hdiagnostics, hsublist, hcuts⟩ := h.found
  have hold {c : ClassId} {l : List ClassId} (hl : o.LeastCycle c l) : c ∈ done ++ [id] ↔ c ∈ done := by
    rw [List.mem_append, List.mem_singleton]
    apply or_iff_left
    intro heq
    exact hno l (heq ▸ hl)
  refine
    { fixed := h.fixed
      cut := fun hc hl => h.cut ((hold hl).mp hc) hl
      kept := fun hc => h.kept fun l hdone hl => hc l ((hold hl).mpr hdone) hl
      found := ⟨cuts, hdiagnostics, hsublist.trans (List.sublist_append_left _ _), fun c l => ?_⟩ }
  rw [hcuts c l]
  exact and_congr_left fun hl => (hold hl).symm

/-- A class that is the least of a cycle is cut and reported. -/
theorem cutAt {path : List ClassId} (h : CutUpTo o done o') (hleast : o.LeastCycle id path) :
    CutUpTo o (done ++ [id])
      ((o'.modifyClass id fun c => { c with base := none }).report
        (.inheritanceCycle (o'.className id) (o'.className id :: path.map o'.className))) := by
  obtain ⟨cuts, hdiagnostics, hsublist, hcuts⟩ := h.found
  have hname : o'.className = o.className := funext (className_of_fixed_eq h.fixed)
  have hfixed : (o'.modifyClass id fun c => { c with base := none }).fixed = o'.fixed :=
    fixed_modifyClass fun _ => rfl
  refine
    { fixed := fixed_report.trans (hfixed.trans h.fixed)
      cut := fun {c l} hc hl => ?_
      kept := fun {c} hc => ?_
      found := ⟨cuts ++ [(id, path)], ?_, ?_, fun c l => ?_⟩ }
  · apply base?_modifyClass_base_none.trans
    split
    next => rfl
    next hne =>
      rcases List.mem_append.mp hc with hc | hc
      · exact h.cut hc hl
      · exact absurd (List.mem_singleton.mp hc) hne
  · apply base?_modifyClass_base_none.trans
    split
    next heq =>
      subst heq
      exact absurd hleast (hc path (List.mem_append_right _ (List.mem_singleton_self c)))
    next => exact h.kept fun l hdone => hc l (List.mem_append_left _ hdone)
  · simp only [report, modifyClass, hdiagnostics, hname, List.map_append, List.append_assoc]
    rfl
  · rw [List.map_append]
    exact hsublist.append (List.Sublist.refl _)
  · simp only [List.mem_append, hcuts c l, List.mem_singleton, Prod.mk.injEq, or_and_right]
    apply or_congr_right
    constructor
    · rintro ⟨hc, hl⟩
      subst hc hl
      exact ⟨rfl, hleast⟩
    · rintro ⟨hc, hl⟩
      subst hc
      exact ⟨rfl, hl.cycle.unique hleast.cycle⟩

/-- One visit in order keeps the invariant. -/
theorem step (h : CutUpTo o done o') (ho : o.Arena) (hbefore : ∀ c ∈ done, o.Precedes c id)
    (hafter : ∀ c x, o.class? c = some x → o.Precedes c id → c ∈ done) :
    CutUpTo o (done ++ [id]) (o'.cutCycleAt id) := by
  have hiff {l : List ClassId} := (returnPath?_base?_eq_some_iff (l := l)).trans (h.cycleFrom_iff ho hbefore hafter)
  unfold cutCycleAt
  split
  next hnone =>
    apply h.skip
    intro l hl
    rw [hiff.mpr hl] at hnone
    cases hnone
  next path hpath => exact h.cutAt (hiff.mp hpath)

/-- The remaining visits keep the invariant. -/
theorem foldl (h : CutUpTo o done o') (ho : o.Arena) (hall : done ++ rest = o.classesByQualifiedName) :
    CutUpTo o (done ++ rest) (rest.foldl cutCycleAt o') := by
  induction rest generalizing done o' with
  | nil => simpa using h
  | cons id rest ih =>
    obtain ⟨-, hrest, hbefore⟩ := List.pairwise_append.mp (hall ▸ ho.pairwise_classesByQualifiedName)
    have hstep : CutUpTo o (done ++ [id]) (o'.cutCycleAt id) := by
      apply h.step ho (fun c hc => hbefore c hc id List.mem_cons_self)
      intro c x hx hprecedes
      have hmem : c ∈ done ++ id :: rest := hall ▸ ho.mem_classesByQualifiedName.mpr ⟨x, hx⟩
      rcases List.mem_append.mp hmem with hc | hc
      · exact hc
      · rcases List.mem_cons.mp hc with rfl | hc
        · exact absurd hprecedes Precedes.irrefl
        · exact absurd hprecedes ((List.pairwise_cons.mp hrest).1 c hc).asymm
    have hrun := ih hstep (by rw [List.append_assoc]; exact hall)
    rwa [List.append_assoc] at hrun

/-- Cutting inheritance cycles visits every class. -/
theorem cutInheritanceCycles (ho : o.Arena) (hbase : ∀ c, o.base? c = o.declaredBase? c) :
    CutUpTo o o.classesByQualifiedName o.cutInheritanceCycles :=
  (start hbase).foldl ho (List.nil_append _)

/-- When every class is visited no class reaches itself along bases. -/
theorem not_transGen_base (h : CutUpTo o o.classesByQualifiedName o') (ho : o.Arena) :
    ¬ Relation.TransGen (fun x y => o'.base? x = some y) c c := by
  intro hreach
  obtain ⟨l, hl⟩ := CycleFrom.exists_of_transGen hreach
  obtain ⟨d, hd, m, hm, -⟩ := ho.exists_leastCycle (h.cycleFrom_declared hl)
  obtain ⟨e, he⟩ := hm.cycle.isSome_of_mem hm.cycle.start_mem
  obtain ⟨y, hy⟩ := hl.isSome_of_mem hd
  rw [h.cut (ho.mem_classesByQualifiedName.mpr (class?_of_declaredBase? he)) hm] at hy
  cases hy

end CutUpTo

/-- What an ontology with cut inheritance cycles is: bases do not loop, a class has its declared base
unless it is the least class of a cycle of declared bases, and these cycles are found once each, in the
order of their least classes. -/
structure CyclesCut (o : Ontology) : Prop where
  acyclic : ∀ c, ¬ Relation.TransGen (fun x y => o.base? x = some y) c c
  cut : ∀ c, (o.declaredBase? c = none ∨ ∃ l, o.LeastCycle c l) → o.base? c = none
  kept : ∀ c, ¬(o.declaredBase? c = none ∨ ∃ l, o.LeastCycle c l) → o.base? c = o.declaredBase? c
  found : ∃ cuts : List (ClassId × List ClassId),
    o.diagnostics.withCode .inheritanceCycle = cuts.map o.cycleFinding ∧
      (cuts.map Prod.fst).Pairwise o.Precedes ∧ (∀ c l, (c, l) ∈ cuts ↔ o.LeastCycle c l) ∧
        ∀ c l, CycleFrom o.declaredBase? c l → ∃! cut, cut ∈ cuts ∧ cut.2.Perm l

end Ontology

namespace Schema

/-- A built ontology comes from one of the right shape that has its bases bound, by the visits that cut
inheritance cycles. -/
theorem exists_bound_of_build {s : Schema} {o : Ontology} (h : s.build = .ok o) :
    ∃ b : Ontology, b.Arena ∧ (∀ c, b.base? c = b.declaredBase? c) ∧ o.fixed = b.fixed ∧
      (∀ c, o.base? c = b.cutInheritanceCycles.base? c) ∧ b.diagnostics.withCode .inheritanceCycle = [] ∧
        o.diagnostics.withCode .inheritanceCycle = b.cutInheritanceCycles.diagnostics.withCode .inheritanceCycle := by
  obtain ⟨ps, hps, rfl⟩ := build_eq_ok_iff.mp h
  have ha := arena_of_declarations hps
  have hfixed := Ontology.fixed_bindBases (.assemble s.name s.version s.doc ps)
  refine ⟨_, ha.of_fixed_eq hfixed, fun c => ?_, (Ontology.fixed_resolve _).trans hfixed.symm,
    Ontology.base?_resolve _, ?_, Ontology.withCode_inheritanceCycle_resolve _⟩
  · rw [ha.base?_bindBases, Ontology.declaredBase?_of_fixed_eq hfixed]
  · exact (Ontology.extends_bindBases _).withCode_eq (by decide)

/-- In a built ontology no class reaches itself along bases. -/
theorem not_transGen_base_of_build {s : Schema} {o : Ontology} (h : s.build = .ok o) (c : ClassId) :
    ¬ Relation.TransGen (fun x y => o.base? x = some y) c c := by
  obtain ⟨b, hb, hbase, -, hbases, -, -⟩ := exists_bound_of_build h
  simp only [hbases]
  exact (Ontology.CutUpTo.cutInheritanceCycles hb hbase).not_transGen_base hb

/-- Every built ontology has its inheritance cycles cut, each at its least class and nowhere else. -/
theorem inheritance_cycles_cut {s : Schema} {o : Ontology} (h : s.build = .ok o) : o.CyclesCut := by
  obtain ⟨b, hb, hbase, hfixed, hbases, hnone, hcode⟩ := exists_bound_of_build h
  have hcuts := Ontology.CutUpTo.cutInheritanceCycles hb hbase
  have hleast {c : ClassId} {l : List ClassId} : o.LeastCycle c l ↔ b.LeastCycle c l :=
    Ontology.leastCycle_of_fixed_eq hfixed
  have hvisited {c : ClassId} {l : List ClassId} (hl : b.LeastCycle c l) : c ∈ b.classesByQualifiedName := by
    obtain ⟨d, hd⟩ := hl.cycle.isSome_of_mem hl.cycle.start_mem
    exact hb.mem_classesByQualifiedName.mpr (Ontology.class?_of_declaredBase? hd)
  have hdeclared : o.declaredBase? = b.declaredBase? := Ontology.declaredBase?_of_fixed_eq hfixed
  have hlast {c : ClassId} (hno : ∀ l, ¬ b.LeastCycle c l) : o.base? c = o.declaredBase? c := by
    rw [hbases, hdeclared]
    exact hcuts.kept fun l _ => hno l
  refine ⟨not_transGen_base_of_build h, fun c hc => ?_, fun c hc => ?_, ?_⟩
  · by_cases hl : ∃ l, b.LeastCycle c l
    · obtain ⟨l, hl⟩ := hl
      rw [hbases, hcuts.cut (hvisited hl) hl]
    · have hundefined := hc.resolve_right fun ⟨l, h⟩ => hl ⟨l, hleast.mp h⟩
      rw [hlast fun l h => hl ⟨l, h⟩, hundefined]
  · exact hlast fun l h => hc (Or.inr ⟨l, hleast.mpr h⟩)
  · obtain ⟨cuts, hdiagnostics, hsublist, hmem⟩ := hcuts.found
    have hiff (c : ClassId) (l : List ClassId) : (c, l) ∈ cuts ↔ o.LeastCycle c l := by
      rw [hmem, hleast]
      exact and_iff_right_of_imp hvisited
    refine ⟨cuts, ?_, ?_, hiff, fun c l hl => ?_⟩
    · have hcodes : ∀ d ∈ cuts.map b.cycleFinding, d.code = .inheritanceCycle := by
        intro d hd
        obtain ⟨cut, -, rfl⟩ := List.mem_map.mp hd
        rfl
      rw [hcode, hdiagnostics, Ontology.cycleFinding_of_fixed_eq hfixed, Diagnostics.withCode_append, hnone,
        Diagnostics.withCode_eq_self hcodes, List.nil_append]
    · exact (hb.pairwise_classesByQualifiedName.sublist hsublist).imp (Ontology.precedes_of_fixed_eq hfixed).mpr
    · obtain ⟨d, hd, m, hm, hperm⟩ := hb.exists_leastCycle (hdeclared ▸ hl)
      refine ⟨(d, m), ⟨(hiff d m).mpr (hleast.mpr hm), hperm⟩, fun ⟨e, n⟩ ⟨he, hperm'⟩ => ?_⟩
      have hn : b.LeastCycle e n := hleast.mp ((hiff e n).mp he)
      obtain ⟨rfl, rfl⟩ := hn.unique hm (hperm'.trans hperm.symm)
      rfl

/-- A schema whose classes have the given bases. -/
def lineage (bases : List (String × String)) : Schema :=
  ⟨"lineage", "1", "", [⟨"kin", some "", some (.ofList (bases.map fun (name, base) =>
    (name, .object [("base", .text base)]))), none⟩]⟩

/-- Two classes that are each other's base, a class below them, and a class that is its own base. -/
theorem lineage_cycles_cut :
    ∃ o, (lineage [("ada", "kin.bea"), ("bea", "kin.ada"), ("cyd", "kin.bea"), ("dot", "kin.dot")]).build = .ok o ∧
      o.CyclesCut ∧ o.classes.map Class.base = [none, some ⟨0⟩, some ⟨1⟩, none] ∧
        o.diagnostics.map Diagnostic.message =
          ["inheritance cycle kin.ada -> kin.bea -> kin.ada; base removed",
            "inheritance cycle kin.dot -> kin.dot; base removed"] := by
  have hbuild : ((lineage [("ada", "kin.bea"), ("bea", "kin.ada"), ("cyd", "kin.bea"), ("dot", "kin.dot")]).build.map
      fun o => (o.classes.map Class.base, o.diagnostics.map Diagnostic.message)) =
        .ok ([none, some ⟨0⟩, some ⟨1⟩, none],
          ["inheritance cycle kin.ada -> kin.bea -> kin.ada; base removed",
            "inheritance cycle kin.dot -> kin.dot; base removed"]) := by
    cbv
  obtain ⟨o, ho, heq⟩ := Declaration.map_eq_ok.mp hbuild
  obtain ⟨hbases, hmessages⟩ := Prod.mk.inj heq
  exact ⟨o, ho, inheritance_cycles_cut ho, hbases, hmessages⟩

end Schema

end OntologyCompiler
