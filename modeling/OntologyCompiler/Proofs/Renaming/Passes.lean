import OntologyCompiler.Proofs.Imports.Deferral
import OntologyCompiler.Proofs.Renaming.Basic

/-!
# Passes over renamed ontologies

Every pass does the same to an ontology and to a renamed one. Passes over all items do so item by item; those
that visit classes one after another visit them in the order of their names, which stays.
-/

namespace OntologyCompiler

open Ontology

variable {ρ : Renaming} {o o' : Ontology}

namespace Renaming

/-- A renamed class has the renamed base. -/
theorem bindBase_onClass (h : ρ.Carries o o') (c : Class) :
    bindBase o'.index (ρ.onClass c) = ρ.onClass (bindBase o.index c) := by
  have hbase : c.declaredBase.bind (classNamed o'.index) =
      (c.declaredBase.bind (classNamed o.index)).map ρ.ofClass := by
    rw [Option.map_bind]
    exact Option.bind_congr fun name _ => h.classNamed name
  unfold bindBase
  change ({ ρ.onClass c with base := c.declaredBase.bind (classNamed o'.index) } : Class) = _
  rw [hbase]
  rfl

/-- A renamed class has the same dangling base. -/
theorem danglingBase?_onClass (h : ρ.Carries o o') (c : Class) :
    danglingBase? o'.index (ρ.onClass c) = danglingBase? o.index c := by
  refine Option.bind_congr fun declared _ => ?_
  rw [h.classNamed]
  cases classNamed o.index declared <;> rfl

/-- A bound type is renamed like the type. -/
theorem bindType_type (h : ρ.Carries o o') (t : ValueType) :
    bindType o'.index (ρ.type t) = ρ.type (bindType o.index t) := by
  unfold bindType
  rw [isResolved_type]
  by_cases hresolved : t.isResolved = true
  · rw [if_pos hresolved, if_pos hresolved]
  · rw [if_neg hresolved, if_neg hresolved]
    have hindex : o'.index.get? (ρ.type t).name = (o.index.get? t.name).map ρ.entity := h.index t.name
    rw [hindex]
    cases o.index.get? t.name <;> rfl

/-- A renamed type dangles like the type. -/
theorem danglingType?_type (h : ρ.Carries o o') (owner : String) (t : ValueType) :
    danglingType? o'.index owner (ρ.type t) = danglingType? o.index owner t := by
  unfold danglingType?
  rw [isResolved_type]
  change (if t.isResolved = true then none else if (o'.index.get? t.name).isSome = true then none else _) = _
  rw [h.index, Option.isSome_map]
  rfl

/-- A renamed property dangles like the property. -/
theorem danglingProperty?_onProperty (h : ρ.Carries o o') (p : Property) :
    o'.danglingProperty? (ρ.onProperty p) = o.danglingProperty? p := by
  change danglingType? o'.index (o'.className (ρ.ofClass p.owner) ++ "." ++ p.name) (ρ.type p.type) = _
  rw [danglingType?_type h, h.className]
  rfl

/-- The override types of a renamed class dangle like those of the class. -/
theorem danglingDecodings_onClass (h : ρ.Carries o o') (c : Class) :
    o'.danglingDecodings (ρ.onClass c) = o.danglingDecodings c := by
  unfold danglingDecodings
  change (c.decodings.map ρ.onDecoding).filterMap _ = _
  rw [List.filterMap_map]
  apply List.filterMap_congr
  intro d hd
  change (d.overrideType.map ρ.type).bind _ = _
  rw [Option.bind_map]
  exact Option.bind_congr fun t _ => danglingType?_type h _ t

/-- A way back along renamed bases is the renamed way back. -/
theorem returnPath?_map {base base' : ClassId → Option ClassId} {move : ClassId → ClassId}
    (hinjective : Function.Injective move) (hbase : ∀ id, base' (move id) = (base id).map move) (start : ClassId)
    (fuel : ℕ) (seen : List ClassId) (next : Option ClassId) :
    returnPath? base' (move start) fuel (seen.map move) (next.map move) =
      (returnPath? base start fuel seen next).map (List.map move) := by
  induction fuel generalizing seen next with
  | zero => rfl
  | succ fuel ih =>
    cases next with
    | none => rfl
    | some id =>
      rw [Option.map_some, returnPath?, returnPath?]
      simp only [hinjective.eq_iff, List.mem_map_of_injective hinjective]
      by_cases hstart : id = start
      · rw [if_pos hstart, if_pos hstart]
        rfl
      · rw [if_neg hstart, if_neg hstart]
        by_cases hseen : id ∈ seen
        · rw [if_pos hseen, if_pos hseen]
          rfl
        · rw [if_neg hseen, if_neg hseen, hbase, ← List.map_cons, ih, Option.map_map, Option.map_map]
          rfl

namespace Carries

variable (h : ρ.Carries o o')

include h

/-- Binding bases. -/
theorem bindBases : ρ.Carries o.bindBases o'.bindBases :=
  { h with
    classes := h.classes.map fun c _ => bindBase_onClass h c
    diagnostics := h.diagnostics.append (h.classes.perm_filterMap fun c _ => danglingBase?_onClass h c) }

/-- A change of one class. -/
theorem modifyClass {f g : Class → Class} (hchange : ∀ c, g (ρ.onClass c) = ρ.onClass (f c)) (id : ClassId) :
    ρ.Carries (o.modifyClass id f) (o'.modifyClass (ρ.ofClass id) g) :=
  { h with classes := h.classes.modify (fun c _ => hchange c) id.index }

/-- One more finding. -/
theorem report (d : Diagnostic) : ρ.Carries (o.report d) (o'.report d) :=
  { h with diagnostics := h.diagnostics.append_right [d] }

omit h in
/-- Corresponding steps one after another. -/
theorem foldl {α : Type} {move : α → α} {step : Ontology → α → Ontology}
    (hstep : ∀ {o o' : Ontology}, ρ.Carries o o' → ∀ a, ρ.Carries (step o a) (step o' (move a)))
    (h : ρ.Carries o o') (l : List α) : ρ.Carries (l.foldl step o) ((l.map move).foldl step o') := by
  induction l generalizing o o' with
  | nil => exact h
  | cons a l ih => exact ih (hstep h a)

/-- Cutting a cycle at one class. -/
theorem cutCycleAt (id : ClassId) : ρ.Carries (o.cutCycleAt id) (o'.cutCycleAt (ρ.ofClass id)) := by
  have hinjective : Function.Injective ρ.ofClass := fun a b => h.ofClass_inj.mp
  have hpath := returnPath?_map hinjective h.base? id (o.classes.length + 1) [id] (o.base? id)
  rw [List.map_singleton, ← h.base?, ← h.classes.length_eq] at hpath
  unfold Ontology.cutCycleAt
  rw [hpath, h.classes.length_eq]
  cases returnPath? o.base? id (o.classes.length + 1) [id] (o.base? id) with
  | none => exact h
  | some path =>
    have hnames : (path.map ρ.ofClass).map o'.className = path.map o.className := by
      rw [List.map_map]
      exact List.map_congr_left fun c _ => h.className c
    change ρ.Carries _ ((o'.modifyClass (ρ.ofClass id) _).report (.inheritanceCycle (o'.className (ρ.ofClass id))
      (o'.className (ρ.ofClass id) :: (path.map ρ.ofClass).map o'.className)))
    rw [h.className, hnames]
    refine (h.modifyClass ?_ id).report _
    exact fun c => rfl

/-- Classes are visited in the same order. -/
theorem classesByQualifiedName (hnames : (o.classes.map Class.qualifiedName).Nodup) :
    o'.classesByQualifiedName = o.classesByQualifiedName.map ρ.ofClass := by
  rw [Ontology.classesByQualifiedName, Ontology.classesByQualifiedName,
    sortOn_eq_map_of_perm h.classes.perm (fun _ => rfl) hnames, List.map_map, List.map_map]
  rfl

/-- Cutting all cycles. -/
theorem cutInheritanceCycles (hnames : (o.classes.map Class.qualifiedName).Nodup) :
    ρ.Carries o.cutInheritanceCycles o'.cutInheritanceCycles := by
  unfold Ontology.cutInheritanceCycles
  rw [h.classesByQualifiedName hnames]
  exact foldl cutCycleAt h _

/-- Binding types. -/
theorem bindTypes : ρ.Carries o.bindTypes o'.bindTypes :=
  { h with
    properties := by
      apply h.properties.map
      intro p hp
      change ({ ρ.onProperty p with type := bindType o'.index (ρ.type p.type) } : Property) = _
      rw [bindType_type h]
      rfl
    classes := by
      apply h.classes.map
      intro c hc
      have hdecodings : (c.decodings.map ρ.onDecoding).map (fun d =>
            { d with overrideType := d.overrideType.map (bindType o'.index) }) =
          (c.decodings.map fun d => { d with overrideType := d.overrideType.map (bindType o.index) }).map
            ρ.onDecoding := by
        rw [List.map_map, List.map_map]
        apply List.map_congr_left
        intro d hd
        simp only [Function.comp_apply, onDecoding, Option.map_map]
        congr 2
        exact funext (bindType_type h)
      change ({ ρ.onClass c with decodings := (c.decodings.map ρ.onDecoding).map _ } : Class) = _
      rw [hdecodings]
      rfl
    diagnostics :=
      (h.diagnostics.append (h.properties.perm_filterMap fun p _ => danglingProperty?_onProperty h p)).append
        (h.classes.perm_flatMap fun c _ => danglingDecodings_onClass h c) }

/-- A renamed class has the same imports. -/
theorem importsOf (c : Class) : o'.importsOf (ρ.onClass c) = o.importsOf c := by
  have hbase : o'.baseEdge? (ρ.onClass c) = o.baseEdge? c := by
    rw [baseEdge?, baseEdge?, h.base_onClass, Option.map_map]
    congr 1
    exact funext h.edgeTo
  have hproperties : o'.propertyEdges (ρ.onClass c) = o.propertyEdges c := by
    rw [propertyEdges, propertyEdges, h.properties_onClass, List.filterMap_map]
    rfl
  rw [Ontology.importsOf, Ontology.importsOf, hbase, hproperties, h.edgeTo]

/-- Computing imports. -/
theorem computeImports : ρ.Carries o.computeImports o'.computeImports :=
  { h with
    classes := by
      apply h.classes.map
      intro c hc
      rw [h.importsOf]
      rfl }

/-- A renamed class has the renamed targets. -/
theorem classTargets (id : ClassId) : o'.classTargets (ρ.ofClass id) = (o.classTargets id).map ρ.ofClass := by
  have hfound : ((o.ownProperties id).map ρ.onProperty).filterMap (fun p => p.type.classId?) =
      ((o.ownProperties id).filterMap fun p => p.type.classId?).map ρ.ofClass := by
    rw [List.filterMap_map, List.map_filterMap]
    exact List.filterMap_congr fun p _ => classId?_type ρ p.type
  rw [Ontology.classTargets, Ontology.classTargets, h.ownProperties, hfound, List.filter_map]
  congr 1
  apply List.filter_congr
  intro d hd
  simp [h.ofClass_inj]

/-- The pairs of classes that are visited are renamed. -/
theorem targetPairs (hnames : (o.classes.map Class.qualifiedName).Nodup) :
    o'.targetPairs = o.targetPairs.map (Prod.map ρ.ofClass ρ.ofClass) := by
  rw [Ontology.targetPairs, Ontology.targetPairs, h.classesByQualifiedName hnames, List.flatMap_map, List.map_flatMap]
  apply List.flatMap_congr
  intro c hc
  rw [h.classTargets, List.map_map, List.map_map]
  rfl

/-- Deferring one import. -/
theorem deferImport (pair : ClassId × ClassId) :
    ρ.Carries (o.deferImport pair) (o'.deferImport (Prod.map ρ.ofClass ρ.ofClass pair)) := by
  unfold Ontology.deferImport
  simp only [Prod.map_fst, Prod.map_snd, h.class?]
  cases o.class? pair.1 with
  | none => exact h
  | some c =>
    cases o.class? pair.2 with
    | none => exact h
    | some d =>
      simp only [Option.map_some, h.edgeTo]
      change ρ.Carries _ (if o.edgeTo d ∈ c.imports ∧ o.edgeTo c ∈ d.imports then _ else _)
      split
      · refine (h.modifyClass ?_ pair.2).report _
        exact fun d => rfl
      · exact h

/-- Breaking circular imports. -/
theorem breakCircularImports (hnames : (o.classes.map Class.qualifiedName).Nodup) :
    ρ.Carries o.breakCircularImports o'.breakCircularImports := by
  unfold Ontology.breakCircularImports
  rw [h.targetPairs hnames]
  exact foldl deferImport h _

end Carries

end Renaming

end OntologyCompiler
