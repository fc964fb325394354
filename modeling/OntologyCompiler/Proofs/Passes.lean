import OntologyCompiler.Proofs.Frame

/-!
# What the passes write

Each pass adds findings of one kind behind those it is given, so the findings of a kind in a resolved
ontology are those of the one pass that makes them. Bases are settled once the inheritance cycles are
cut, the types of properties once they are bound, and the classes once circular imports are broken.
-/

namespace OntologyCompiler

/-- Findings are seen under a kind one part after the other. -/
theorem Diagnostics.withCode_append (ds es : Diagnostics) (code : DiagnosticCode) :
    withCode (ds ++ es) code = withCode ds code ++ withCode es code :=
  List.filter_append ds es

/-- Findings of one kind are not seen under another. -/
theorem Diagnostics.withCode_eq_nil {ds : Diagnostics} {code made : DiagnosticCode}
    (h : ∀ d ∈ ds, d.code = made) (hne : made ≠ code) : withCode ds code = [] := by
  apply List.filter_eq_nil_iff.mpr
  intro d hd
  rw [h d hd]
  simpa using hne

/-- Findings of one kind are all seen under it. -/
theorem Diagnostics.withCode_eq_self {ds : Diagnostics} {code : DiagnosticCode} (h : ∀ d ∈ ds, d.code = code) :
    withCode ds code = ds :=
  List.filter_eq_self.mpr fun d hd => by simp [h d hd]

namespace Ontology

variable {o o' o'' : Ontology} {code made : DiagnosticCode}

/-- The second ontology has the findings of the first, and behind them findings of one kind. -/
def Extends (made : DiagnosticCode) (o o' : Ontology) : Prop :=
  ∃ es, o'.diagnostics = o.diagnostics ++ es ∧ ∀ d ∈ es, d.code = made

namespace Extends

/-- Unchanged findings are extended by none. -/
theorem of_eq (h : o'.diagnostics = o.diagnostics) : Extends made o o' :=
  ⟨[], by rw [h, List.append_nil], by simp⟩

/-- Extensions of one kind add up. -/
theorem trans (h : Extends made o o') (h' : Extends made o' o'') : Extends made o o'' := by
  obtain ⟨es, hes, hcode⟩ := h
  obtain ⟨fs, hfs, hcode'⟩ := h'
  refine ⟨es ++ fs, by rw [hfs, hes, List.append_assoc], fun d hd => ?_⟩
  rcases List.mem_append.mp hd with hd | hd
  · exact hcode d hd
  · exact hcode' d hd

/-- Steps that extend the findings extend them together. -/
theorem foldl {α : Type} {step : Ontology → α → Ontology} (h : ∀ o a, Extends made o (step o a)) (l : List α)
    (o : Ontology) : Extends made o (l.foldl step o) := by
  induction l generalizing o with
  | nil => exact of_eq rfl
  | cons a l ih => exact (h o a).trans (ih (step o a))

/-- Findings of other kinds are the same before and after. -/
theorem withCode_eq (h : Extends made o o') (hne : made ≠ code) :
    o'.diagnostics.withCode code = o.diagnostics.withCode code := by
  obtain ⟨es, hes, hcode⟩ := h
  rw [hes, Diagnostics.withCode_append, Diagnostics.withCode_eq_nil hcode hne, List.append_nil]

end Extends

/-- Binding bases finds bases that are no class. -/
theorem extends_bindBases (o : Ontology) : Extends .unresolvedBase o o.bindBases := by
  refine ⟨_, rfl, fun d hd => ?_⟩
  obtain ⟨c, -, hc⟩ := List.mem_filterMap.mp hd
  obtain ⟨declared, -, hd⟩ := Option.bind_eq_some_iff.mp hc
  split at hd
  · cases hd
  · cases hd
    rfl

/-- A cut finds an inheritance cycle. -/
theorem extends_cutCycleAt (o : Ontology) (id : ClassId) : Extends .inheritanceCycle o (o.cutCycleAt id) := by
  unfold cutCycleAt
  split
  · exact .of_eq rfl
  · refine ⟨_, rfl, fun d hd => ?_⟩
    rw [List.mem_singleton.mp hd]
    rfl

/-- Cutting inheritance cycles finds these. -/
theorem extends_cutInheritanceCycles (o : Ontology) : Extends .inheritanceCycle o o.cutInheritanceCycles :=
  .foldl extends_cutCycleAt _ o

/-- A finding about a type says that it is unresolved. -/
theorem code_of_danglingType? {index : OrderedMap String EntityId} {owner : String} {t : ValueType}
    {d : Diagnostic} (h : danglingType? index owner t = some d) : d.code = .unresolvedType := by
  unfold danglingType? at h
  split at h
  · cases h
  · split at h
    · cases h
    · cases h
      rfl

/-- Binding types finds types that do not exist. -/
theorem extends_bindTypes (o : Ontology) : Extends .unresolvedType o o.bindTypes := by
  refine ⟨_, List.append_assoc _ _ _, fun d hd => ?_⟩
  rcases List.mem_append.mp hd with hd | hd
  · obtain ⟨p, -, hp⟩ := List.mem_filterMap.mp hd
    exact code_of_danglingType? hp
  · obtain ⟨c, -, hc⟩ := List.mem_flatMap.mp hd
    obtain ⟨decoding, -, hdecoding⟩ := List.mem_filterMap.mp hc
    obtain ⟨t, -, ht⟩ := Option.bind_eq_some_iff.mp hdecoding
    exact code_of_danglingType? ht

/-- Deferring one import finds a circular import. -/
theorem extends_deferImport (o : Ontology) (pair : ClassId × ClassId) :
    Extends .circularImport o (o.deferImport pair) := by
  unfold deferImport
  split
  · dsimp only
    split
    · refine ⟨_, rfl, fun d hd => ?_⟩
      rw [List.mem_singleton.mp hd]
      rfl
    · exact .of_eq rfl
  · exact .of_eq rfl

/-- Breaking circular imports finds these. -/
theorem extends_breakCircularImports (o : Ontology) : Extends .circularImport o o.breakCircularImports :=
  .foldl extends_deferImport _ o

/-- Reporting package cycles finds these. -/
theorem extends_reportPackageCycles (o : Ontology) : Extends .packageCycle o o.reportPackageCycles := by
  refine ⟨_, rfl, fun d hd => ?_⟩
  obtain ⟨members, -, rfl⟩ := List.mem_map.mp hd
  rfl

/-- The inheritance cycles of a resolved ontology are those found when they were cut. -/
theorem withCode_inheritanceCycle_resolve (o : Ontology) :
    o.resolve.diagnostics.withCode .inheritanceCycle =
      o.bindBases.cutInheritanceCycles.diagnostics.withCode .inheritanceCycle := by
  rw [resolve, (extends_reportPackageCycles _).withCode_eq (by decide)]
  change (Ontology.breakCircularImports _).diagnostics.withCode _ = _
  rw [(extends_breakCircularImports _).withCode_eq (by decide)]
  exact (extends_bindTypes _).withCode_eq (by decide)

/-- The circular imports of a resolved ontology are those found when they were broken. -/
theorem withCode_circularImport_resolve (o : Ontology) :
    o.resolve.diagnostics.withCode .circularImport =
      o.bindBases.cutInheritanceCycles.bindTypes.computeImports.breakCircularImports.diagnostics.withCode
        .circularImport := by
  rw [resolve, (extends_reportPackageCycles _).withCode_eq (by decide)]
  rfl

/-- Until circular imports are broken none is found. -/
theorem withCode_circularImport_computeImports (o : Ontology) :
    o.bindBases.cutInheritanceCycles.bindTypes.computeImports.diagnostics.withCode .circularImport =
      o.diagnostics.withCode .circularImport := by
  change (Ontology.bindTypes _).diagnostics.withCode _ = _
  rw [(extends_bindTypes _).withCode_eq (by decide), (extends_cutInheritanceCycles _).withCode_eq (by decide),
    (extends_bindBases _).withCode_eq (by decide)]

/-- A pass over the classes that keeps their bases keeps all bases. -/
theorem base?_eq_of_map_base_eq (h : o'.classes.map Class.base = o.classes.map Class.base) (id : ClassId) :
    o'.base? id = o.base? id := by
  have hget : (o'.classes.map Class.base)[id.index]? = (o.classes.map Class.base)[id.index]? := by rw [h]
  simp only [List.getElem?_map] at hget
  simp only [base?, class?]
  cases hc : o.classes[id.index]? <;> cases hc' : o'.classes[id.index]? <;> simp_all

/-- Deferring one import keeps the bases. -/
theorem map_base_deferImport (o : Ontology) (pair : ClassId × ClassId) :
    (o.deferImport pair).classes.map Class.base = o.classes.map Class.base := by
  unfold deferImport
  split
  · dsimp only
    split
    · exact map_classes_modifyClass fun _ => rfl
    · rfl
  · rfl

/-- Breaking circular imports keeps the bases. -/
theorem base?_breakCircularImports (o : Ontology) (id : ClassId) :
    o.breakCircularImports.base? id = o.base? id := by
  have hfold := foldl_keeps (fun o : Ontology => o.classes.map Class.base) map_base_deferImport
  exact base?_eq_of_map_base_eq (hfold _ o) id

/-- The bases of a resolved ontology are those left when the inheritance cycles were cut. -/
theorem base?_resolve (o : Ontology) (id : ClassId) :
    o.resolve.base? id = o.bindBases.cutInheritanceCycles.base? id := by
  change (Ontology.breakCircularImports _).base? id = _
  rw [base?_breakCircularImports]
  exact base?_eq_of_map_base_eq (by simp [computeImports, bindTypes, Function.comp_def]) id

end Ontology

end OntologyCompiler
