import OntologyCompiler.Proofs.Generation.Engine
import OntologyCompiler.Proofs.References.Binding
import OntologyCompiler.Proofs.References.Wiring

/-!
# Dangling references

A declared base refers to a class, the type of a property or a decoding to a scalar, a class or an
enumeration, both by name. The findings of a build hold one item for each reference that leads nowhere, in the
order in which the references are declared, and between them the items of the passes that break cycles. So
their number is what a strict run reports when it is refused.
-/

namespace OntologyCompiler

/-- A name together with what refers to it. -/
structure Reference where
  owner : String
  name : String
  deriving DecidableEq, Repr

namespace Ontology

/-- A class or an enumeration has the qualified name. -/
def Names (o : Ontology) (name : String) : Prop :=
  (∃ c ∈ o.classes, c.qualifiedName = name) ∨ ∃ e ∈ o.enums, e.qualifiedName = name

instance (o : Ontology) (name : String) : Decidable (o.Names name) :=
  inferInstanceAs (Decidable (_ ∨ _))

/-- The declared bases, one for each class that declares one. -/
def baseReferences (o : Ontology) : List Reference :=
  o.classes.filterMap fun c => c.declaredBase.map (⟨c.qualifiedName, ·⟩)

/-- The primary names of property types. -/
def typeReferences (o : Ontology) : List Reference :=
  o.properties.map fun p => ⟨o.className p.owner ++ "." ++ p.name, p.type.name⟩

/-- The primary names of the types that decodings override. -/
def overrideReferences (o : Ontology) : List Reference :=
  o.classes.flatMap fun c => c.decodings.filterMap fun d =>
    d.overrideType.map fun t => ⟨c.qualifiedName ++ "." ++ d.property, t.name⟩

/-- The declared bases that no class has as its qualified name. -/
def danglingBases (o : Ontology) : List Reference :=
  o.baseReferences.filter fun r => ∀ c ∈ o.classes, c.qualifiedName ≠ r.name

/-- The type names that are neither the keyword of a scalar nor the qualified name of a type. -/
def danglingTypes (o : Ontology) : List Reference :=
  (o.typeReferences ++ o.overrideReferences).filter fun r => ScalarKind.ofKeyword? r.name = none ∧ ¬ o.Names r.name

/-- The run ends before its first stop and reports the number of unresolved references. -/
def Refused {σ ω : Type} (o : Ontology) (g : Generator σ) (options : GenerationOptions) (w : Writer ω) (s : σ)
    (k : ω) (n : Nat) : Prop :=
  g.watch o options w s k = ⟨.error (.unresolvedReferences n), (s, []), (k, [])⟩

/-- Types are bound by name, the findings name every dangling reference once and in order, and a strict run is
refused for them and for nothing else. -/
structure Accounted (o : Ontology) : Prop where
  bound : ∀ t ∈ o.types, t.BoundIn o.index
  items : o.diagnostics =
    o.danglingBases.map (fun r => .unresolvedBase r.owner r.name) ++ o.diagnostics.withCode .inheritanceCycle ++
      o.danglingTypes.map (fun r => .unresolvedType r.owner r.name) ++
        o.diagnostics.withCode .circularImport ++ o.diagnostics.withCode .packageCycle
  refused_iff : ∀ {σ ω : Type} (g : Generator σ) (options : GenerationOptions) (w : Writer ω) (s : σ) (k : ω),
    options.strictness = .strict →
      ((∃ n, o.Refused g options w s k n) ↔ ∃ r, r ∈ o.danglingBases ∨ r ∈ o.danglingTypes)
  reported : ∀ {σ ω : Type} (g : Generator σ) (options : GenerationOptions) (w : Writer ω) (s : σ) (k : ω) (n : Nat),
    options.strictness = .strict → o.Refused g options w s k n →
      n = o.danglingBases.length + o.danglingTypes.length ∧
        g.execute o options w s k = ⟨.error (.unresolvedReferences n), s, k⟩

variable {o o' : Ontology}

section Fixed

variable (h : o'.fixed = o.fixed)

include h

/-- Qualified names of types are in the fixed part. -/
theorem names_of_fixed_eq (name : String) : o'.Names name ↔ o.Names name := by
  have hclasses (o : Ontology) : (∃ c ∈ o.classes, c.qualifiedName = name) ↔
      name ∈ o.fixed.classes.map Class.qualifiedName := by
    simp [fixed, Class.fixed]
  have henums : o'.enums = o.enums := (congrArg Ontology.enums h :)
  rw [Names, Names, hclasses, hclasses, h, henums]

/-- Dangling bases are in the fixed part. -/
theorem danglingBases_of_fixed_eq : o'.danglingBases = o.danglingBases := by
  have hfixed (o : Ontology) : o.fixed.danglingBases = o.danglingBases := by
    simp [danglingBases, baseReferences, fixed, Class.fixed, List.filterMap_map, Function.comp_def]
  rw [← hfixed o', h, hfixed]

/-- The names of property types are in the fixed part. -/
theorem typeReferences_of_fixed_eq : o'.typeReferences = o.typeReferences := by
  have hname : o'.className = o.className := funext (className_of_fixed_eq h)
  have hproperties : o'.properties.map Property.fixed = o.properties.map Property.fixed :=
    (congrArg Ontology.properties h :)
  have hfixed (o : Ontology) (name : ClassId → String) :
      (o.properties.map Property.fixed).map (fun p => Reference.mk (name p.owner ++ "." ++ p.name) p.type.name) =
        o.properties.map fun p => ⟨name p.owner ++ "." ++ p.name, p.type.name⟩ := by
    simp [Property.fixed]
  rw [typeReferences, typeReferences, ← hfixed, ← hfixed, hproperties, hname]

/-- Dangling types are those of an ontology with the same fixed part and the same names in its decodings. -/
theorem danglingTypes_of_fixed_eq (hoverrides : o'.overrideReferences = o.overrideReferences) :
    o'.danglingTypes = o.danglingTypes := by
  simp only [danglingTypes, typeReferences_of_fixed_eq h, hoverrides, names_of_fixed_eq h]

end Fixed

/-- The names in decodings are those in the table of decodings. -/
theorem overrideReferences_eq (o : Ontology) : o.overrideReferences = o.decodingTable.flatMap fun entry =>
    entry.2.filterMap fun d => d.overrideType.map fun t => ⟨entry.1 ++ "." ++ d.property, t.name⟩ := by
  rw [overrideReferences, decodingTable, List.flatMap_map]

/-- Binding types keeps the names in decodings. -/
theorem overrideReferences_resolve (o : Ontology) : o.resolve.overrideReferences = o.overrideReferences := by
  rw [overrideReferences_eq, overrideReferences_eq, decodingTable_resolve, List.flatMap_map]
  simp only [List.filterMap_map, bindDecoding, Function.comp_def, Option.map_map, ValueType.name_bindType]

/-- What is reported of items that refer to something are the findings about their bad references. -/
theorem filterMap_eq_map_filter {α β γ : Type} {l : List α} {report : α → Option γ} {reference : α → Option β}
    {bad : β → Prop} [DecidablePred bad] {finding : β → γ}
    (h : ∀ a ∈ l, report a = (reference a).bind fun b => if bad b then some (finding b) else none) :
    l.filterMap report = ((l.filterMap reference).filter bad).map finding := by
  induction l with
  | nil => rfl
  | cons a l ih =>
    have hrest := ih fun b hb => h b (List.mem_cons_of_mem a hb)
    have hfirst := h a List.mem_cons_self
    cases hb : reference a with
    | none =>
      rw [hb, Option.bind_none] at hfirst
      rw [List.filterMap_cons_none hfirst, List.filterMap_cons_none hb, hrest]
    | some b =>
      rw [hb, Option.bind_some] at hfirst
      rw [List.filterMap_cons_some hb]
      by_cases hbad : bad b
      · rw [if_pos hbad] at hfirst
        rw [List.filterMap_cons_some hfirst, List.filter_cons_of_pos (by simpa using hbad), List.map_cons, hrest]
      · rw [if_neg hbad] at hfirst
        rw [List.filterMap_cons_none hfirst, List.filter_cons_of_neg (by simpa using hbad), hrest]

/-- The findings about bases are those about the dangling ones. -/
theorem Arena.filterMap_danglingBase? (ho : o.Arena) :
    o.classes.filterMap (danglingBase? o.index) = o.danglingBases.map fun r => .unresolvedBase r.owner r.name := by
  apply filterMap_eq_map_filter
  intro c _
  rw [danglingBase?, Option.bind_map]
  congr 1
  funext declared
  rw [ho.classNamed_eq]
  by_cases hno : ∀ d ∈ o.classes, d.qualifiedName ≠ declared
  · have hnone : o.classes.find? (fun d => d.qualifiedName = declared) = none := by simpa using hno
    simp [hnone, if_pos hno]
  · obtain ⟨d, hd⟩ : ∃ d, o.classes.find? (fun d => d.qualifiedName = declared) = some d := by
      rw [← Option.isSome_iff_exists, List.find?_isSome]
      simpa using hno
    simp [hd, if_neg hno]

/-- A name is in the index exactly if it is the qualified name of a type. -/
theorem Wired.get?_index_eq_none_iff (ho : o.Wired) {name : String} : o.index.get? name = none ↔ ¬ o.Names name := by
  constructor
  · rintro hnone (⟨c, hc, hname⟩ | ⟨e, he, hname⟩)
    · have hsome := ho.index_class.mpr ⟨c, ho.class?_of_mem hc, hname⟩
      rw [hnone] at hsome
      cases hsome
    · obtain ⟨i, hi⟩ := List.mem_iff_getElem?.mp he
      have hsome := (@Wired.index_enum o ho name ⟨i⟩).mpr ⟨e, hi, hname⟩
      rw [hnone] at hsome
      cases hsome
  · intro hno
    rw [Option.eq_none_iff_forall_ne_some]
    intro entity hentity
    cases entity with
    | ofClass id =>
      obtain ⟨c, hc, hname⟩ := ho.index_class.mp hentity
      exact hno (.inl ⟨c, Arena.mem_of_class? hc, hname⟩)
    | ofEnum id =>
      obtain ⟨e, he, hname⟩ := ho.index_enum.mp hentity
      exact hno (.inr ⟨e, List.mem_of_getElem? he, hname⟩)

/-- The finding about an unbound type says whether its name is dangling. -/
theorem Wired.danglingType?_eq (ho : o.Wired) {t : ValueType} (ht : t.Unbound) (owner : String) :
    danglingType? o.index owner t =
      if ScalarKind.ofKeyword? t.name = none ∧ ¬ o.Names t.name then some (.unresolvedType owner t.name) else none := by
  rw [ht.danglingType?_eq_ite]
  simp only [ho.get?_index_eq_none_iff]

/-- The findings about unbound types are those about the dangling ones. -/
theorem Wired.findings_eq (ho : o.Wired) (hunbound : ∀ t ∈ o.types, t.Unbound) :
    o.properties.filterMap o.danglingProperty? ++ o.classes.flatMap o.danglingDecodings =
      o.danglingTypes.map fun r => .unresolvedType r.owner r.name := by
  have hproperties : o.properties.filterMap o.danglingProperty? =
      (o.typeReferences.filter fun r => ScalarKind.ofKeyword? r.name = none ∧ ¬ o.Names r.name).map fun r =>
        .unresolvedType r.owner r.name := by
    have hreferences : o.typeReferences = o.properties.filterMap fun p =>
        some ⟨o.className p.owner ++ "." ++ p.name, p.type.name⟩ := by
      rw [typeReferences, ← List.filterMap_eq_map]
      rfl
    rw [hreferences]
    apply filterMap_eq_map_filter
    intro p hp
    exact ho.danglingType?_eq (hunbound _ (List.mem_append_left _ (List.mem_map_of_mem hp))) _
  have hdecodings : o.classes.flatMap o.danglingDecodings =
      (o.overrideReferences.filter fun r => ScalarKind.ofKeyword? r.name = none ∧ ¬ o.Names r.name).map fun r =>
        .unresolvedType r.owner r.name := by
    rw [overrideReferences, List.filter_flatMap, List.map_flatMap]
    apply List.flatMap_congr
    intro c hc
    apply filterMap_eq_map_filter
    intro d hd
    cases hoverride : d.overrideType with
    | none => rfl
    | some t =>
      have hmem : t ∈ o.types := List.mem_append_right _ <|
        List.mem_filterMap.mpr ⟨d, List.mem_flatMap.mpr ⟨c, hc, hd⟩, hoverride⟩
      exact ho.danglingType?_eq (hunbound t hmem) _
  rw [hproperties, hdecodings, danglingTypes, List.filter_append, List.map_append]

/-- The findings of a resolved ontology are those of the passes, one after the other. -/
theorem exists_findings_of_resolve (hnone : o.diagnostics = []) : ∃ t : Ontology, ∃ cuts imports cycles : Diagnostics,
    t.fixed = o.fixed ∧ t.properties = o.properties ∧ t.decodingTable = o.decodingTable ∧
      (∀ d ∈ cuts, d.code = .inheritanceCycle) ∧ (∀ d ∈ imports, d.code = .circularImport) ∧
        (∀ d ∈ cycles, d.code = .packageCycle) ∧
          o.resolve.diagnostics = o.classes.filterMap (danglingBase? o.index) ++ cuts ++
            (t.properties.filterMap t.danglingProperty? ++ t.classes.flatMap t.danglingDecodings) ++ imports ++
              cycles := by
  let t := o.bindBases.cutInheritanceCycles
  let u := t.bindTypes.computeImports.breakCircularImports.computeAssociations.computeExternalTypes
  obtain ⟨cuts, hcuts, hcutsCode⟩ := extends_cutInheritanceCycles o.bindBases
  obtain ⟨imports, himports, himportsCode⟩ := extends_breakCircularImports t.bindTypes.computeImports
  obtain ⟨cycles, hcycles, hcyclesCode⟩ := extends_reportPackageCycles u
  have hbases : o.bindBases.diagnostics = o.classes.filterMap (danglingBase? o.index) := by
    rw [bindBases, hnone, List.nil_append]
  have htypes : t.bindTypes.computeImports.diagnostics = t.diagnostics ++
      (t.properties.filterMap t.danglingProperty? ++ t.classes.flatMap t.danglingDecodings) :=
    List.append_assoc _ _ _
  refine ⟨t, cuts, imports, cycles, (fixed_cutInheritanceCycles _).trans (fixed_bindBases o),
    properties_cutInheritanceCycles _, (decodingTable_cutInheritanceCycles _).trans (decodingTable_bindBases o),
    hcutsCode, himportsCode, hcyclesCode, ?_⟩
  change u.reportPackageCycles.diagnostics = _
  rw [hcycles]
  change t.bindTypes.computeImports.breakCircularImports.diagnostics ++ cycles = _
  rw [himports, htypes]
  change o.bindBases.cutInheritanceCycles.diagnostics ++ _ ++ imports ++ cycles = _
  rw [hcuts, hbases]

end Ontology

namespace Diagnostics

variable {bases types cuts imports cycles : Diagnostics}

/-- Findings of one kind are all seen under it and none of them under another. -/
theorem withCode_eq_ite {ds : Diagnostics} {code made : DiagnosticCode} (h : ∀ d ∈ ds, d.code = made) :
    ds.withCode code = if made = code then ds else [] := by
  split
  next heq => exact withCode_eq_self (heq ▸ h)
  next hne => exact withCode_eq_nil h hne

/-- The parts that cycles make are seen under their codes between findings about references. -/
theorem eq_append_withCode (hbases : ∀ d ∈ bases, d.code = .unresolvedBase)
    (hcuts : ∀ d ∈ cuts, d.code = .inheritanceCycle) (htypes : ∀ d ∈ types, d.code = .unresolvedType)
    (himports : ∀ d ∈ imports, d.code = .circularImport) (hcycles : ∀ d ∈ cycles, d.code = .packageCycle)
    {ds : Diagnostics} (hds : ds = bases ++ cuts ++ types ++ imports ++ cycles) :
    ds = bases ++ ds.withCode .inheritanceCycle ++ types ++ ds.withCode .circularImport ++
      ds.withCode .packageCycle := by
  have hcode (code : DiagnosticCode) : ds.withCode code = (if .unresolvedBase = code then bases else []) ++
      (if .inheritanceCycle = code then cuts else []) ++ (if .unresolvedType = code then types else []) ++
        (if .circularImport = code then imports else []) ++ if .packageCycle = code then cycles else [] := by
    simp only [hds, withCode_append, withCode_eq_ite hbases, withCode_eq_ite hcuts, withCode_eq_ite htypes,
      withCode_eq_ite himports, withCode_eq_ite hcycles]
  have hcut : ds.withCode .inheritanceCycle = cuts := by simpa using hcode .inheritanceCycle
  have himport : ds.withCode .circularImport = imports := by simpa using hcode .circularImport
  have hcycle : ds.withCode .packageCycle = cycles := by simpa using hcode .packageCycle
  rw [hcut, himport, hcycle]
  exact hds

/-- Findings of one kind are all unresolved or none of them is. -/
theorem unresolvedCount_withCode (ds : Diagnostics) (code : DiagnosticCode) :
    (ds.withCode code).unresolvedCount = if code.isUnresolved then (ds.withCode code).length else 0 := by
  have hcode : ∀ d ∈ ds.withCode code, d.code = code := fun d hd => by simpa using (List.mem_filter.mp hd).2
  split
  next h => exact List.countP_eq_length.mpr fun d hd => by rw [hcode d hd, h]
  next h => exact List.countP_eq_zero.mpr fun d hd => by rwa [hcode d hd]

end Diagnostics

namespace Ontology

variable {o : Ontology}

/-- The unresolved references are the dangling ones. -/
theorem unresolvedCount_eq_of_items (h : o.diagnostics =
    o.danglingBases.map (fun r => .unresolvedBase r.owner r.name) ++ o.diagnostics.withCode .inheritanceCycle ++
      o.danglingTypes.map (fun r => .unresolvedType r.owner r.name) ++
        o.diagnostics.withCode .circularImport ++ o.diagnostics.withCode .packageCycle) :
    o.diagnostics.unresolvedCount = o.danglingBases.length + o.danglingTypes.length := by
  have hbases (l : List Reference) : Diagnostics.unresolvedCount
      (l.map fun r => Diagnostic.unresolvedBase r.owner r.name) = l.length := by
    simp [Diagnostics.unresolvedCount, Diagnostic.unresolvedBase, DiagnosticCode.isUnresolved]
  have htypes (l : List Reference) : Diagnostics.unresolvedCount
      (l.map fun r => Diagnostic.unresolvedType r.owner r.name) = l.length := by
    simp [Diagnostics.unresolvedCount, Diagnostic.unresolvedType, DiagnosticCode.isUnresolved]
  have happend (ds es : Diagnostics) : Diagnostics.unresolvedCount (ds ++ es) =
      ds.unresolvedCount + es.unresolvedCount := List.countP_append
  conv_lhs => rw [h]
  simp [happend, hbases, htypes, Diagnostics.unresolvedCount_withCode, DiagnosticCode.isUnresolved]

end Ontology

namespace Generator

variable {σ ω : Type} {g : Generator σ} {o : Ontology} {options : GenerationOptions} {w : Writer ω} {s : σ} {k : ω}

/-- A run that is allowed is not refused: it is skipped, or makes its first stop. -/
theorem not_refused_of_allow_watch (h : options.Allow o) (n : Nat) : ¬ o.Refused g options w s k n := by
  intro hrefused
  rw [Ontology.Refused, watch] at hrefused
  rcases hrequired : g.isRequired o with _ | _
  · rw [execute_of_idle h (by exact hrequired)] at hrefused
    cases hrefused
  · have hvisits : o.visits ≠ [] := by simp [Ontology.visits]
    rcases Writer.exists_writeAll_or_refuses w.recording (g.recording.emissions o options o.visits (s, [])) (k, []) with
      hall | hstop
    · obtain ⟨k', hall⟩ := hall
      rw [execute_of_writeAll_ok h (by exact hrequired) hall] at hrefused
      cases hrefused
    · obtain ⟨before, e, failure, k', hstop⟩ := hstop
      obtain ⟨done, v, rest, -, -, -, hwalk⟩ := exists_walk_of_refuses hstop (.new g.name)
      rw [after_recording] at hwalk
      rw [execute_of_required h (by exact hrequired)] at hrefused
      have hcalls := congrArg (fun run => run.state.2.length) (hwalk.symm.trans hrefused)
      simp at hcalls

/-- A strict run is refused exactly for unresolved references, with their number. -/
theorem refused_iff_unresolvedCount (h : options.strictness = .strict) (n : Nat) :
    o.Refused g options w s k n ↔ 0 < n ∧ n = o.diagnostics.unresolvedCount := by
  by_cases hpos : 0 < o.diagnostics.unresolvedCount
  · rw [Ontology.Refused, watch, execute_of_unresolved h hpos]
    constructor
    · intro heq
      cases heq
      exact ⟨hpos, rfl⟩
    · intro hall
      rw [hall.2]
  · have hallow : options.Allow o := fun _ => Nat.eq_zero_of_not_pos hpos
    constructor
    · exact fun hrefused => absurd hrefused (not_refused_of_allow_watch hallow n)
    · intro hall
      omega

end Generator

namespace Schema

variable {s : Schema} {o : Ontology}

/-- The findings of a built ontology are about its dangling references and its cycles. -/
theorem items_of_build (h : s.build = .ok o) : o.diagnostics =
    o.danglingBases.map (fun r => .unresolvedBase r.owner r.name) ++ o.diagnostics.withCode .inheritanceCycle ++
      o.danglingTypes.map (fun r => .unresolvedType r.owner r.name) ++
        o.diagnostics.withCode .circularImport ++ o.diagnostics.withCode .packageCycle := by
  obtain ⟨ps, hps, rfl⟩ := build_eq_ok_iff.mp h
  let a := Ontology.assemble s.name s.version s.doc ps
  have hwired : a.Wired := wired_of_declarations hps
  have hresolve : a.resolve.fixed = a.fixed := Ontology.fixed_resolve a
  obtain ⟨t, cuts, imports, cycles, hfixed, hproperties, htable, hcuts, himports, hcycles, hall⟩ :=
    Ontology.exists_findings_of_resolve (show a.diagnostics = [] from rfl)
  have hunbound : ∀ u ∈ t.types, u.Unbound := by
    intro u hu
    rw [Ontology.types_eq, hproperties, htable, ← Ontology.types_eq] at hu
    exact unbound_of_mem_types hps hu
  have hbases : a.resolve.danglingBases = a.danglingBases := Ontology.danglingBases_of_fixed_eq hresolve
  have htypes : a.resolve.danglingTypes = t.danglingTypes := by
    apply Ontology.danglingTypes_of_fixed_eq (hresolve.trans hfixed.symm)
    rw [Ontology.overrideReferences_resolve, Ontology.overrideReferences_eq, Ontology.overrideReferences_eq, htable]
  rw [hwired.filterMap_danglingBase?, (hwired.of_fixed_eq hfixed).findings_eq hunbound, ← hbases, ← htypes] at hall
  have hbasesCode : ∀ d ∈ a.resolve.danglingBases.map fun r => Diagnostic.unresolvedBase r.owner r.name,
      d.code = .unresolvedBase := List.forall_mem_map.mpr fun _ _ => rfl
  have htypesCode : ∀ d ∈ a.resolve.danglingTypes.map fun r => Diagnostic.unresolvedType r.owner r.name,
      d.code = .unresolvedType := List.forall_mem_map.mpr fun _ _ => rfl
  exact Diagnostics.eq_append_withCode hbasesCode hcuts htypesCode himports hcycles hall

/-- Every built ontology accounts for its dangling references. -/
theorem accounted_of_build (h : s.build = .ok o) : o.Accounted := by
  have hitems := items_of_build h
  have hcount := Ontology.unresolvedCount_eq_of_items hitems
  refine ⟨boundIn_of_build h, hitems, fun g options w s k hstrict => ?_, fun g options w s k n hstrict hrefused => ?_⟩
  · simp only [Generator.refused_iff_unresolvedCount hstrict, hcount, exists_eq_right, exists_or,
      ← List.length_pos_iff_exists_mem]
    omega
  · refine ⟨hcount ▸ ((Generator.refused_iff_unresolvedCount hstrict n).mp hrefused).2, ?_⟩
    rw [← Generator.plain_watch, hrefused]
    rfl

/-- A base that is an enumeration, a type without a name, a bare word that is no scalar, a property of a proper type,
and decodings with an unknown type, with none and with a null. -/
def marsh : Schema :=
  ⟨"marsh", "1", "", [⟨"bog", some "",
    some (.ofList [("heron", .object [("base", .text "bog.hue"),
      ("properties", .list [.list [.text "age", .text "integer", .text "0.1"],
        .list [.text "hue", .text "bog.hue", .text "0.1"], .list [.text "mate", .text "linked_to()", .text "0.1"]]),
      ("decodings", .list [.list [.text "age", .text "years", .text "fen.span"], .list [.text "hue", .text "paint"],
        .list [.text "mate", .text "pair", .null]])])]),
    some (.ofList [("hue", .object [("members", .list [.text "grey"])])])⟩]⟩

/-- The schema has one dangling base, two dangling property types and one dangling decoding. -/
theorem marsh_accounted :
    ∃ o, marsh.build = .ok o ∧ o.Accounted ∧ o.danglingBases = [⟨"bog.heron", "bog.hue"⟩] ∧
      o.danglingTypes = [⟨"bog.heron.age", "integer"⟩, ⟨"bog.heron.mate", ""⟩, ⟨"bog.heron.age", "fen.span"⟩] ∧
        o.types.map ValueType.target =
          [.unresolved "integer", .resolved (.ofEnum ⟨0⟩), .unresolved "", .unresolved "fen.span"] := by
  have hbuild : (marsh.build.map fun o => (o.danglingBases, o.danglingTypes, o.types.map ValueType.target)) =
      .ok ([⟨"bog.heron", "bog.hue"⟩],
        [⟨"bog.heron.age", "integer"⟩, ⟨"bog.heron.mate", ""⟩, ⟨"bog.heron.age", "fen.span"⟩],
        [.unresolved "integer", .resolved (.ofEnum ⟨0⟩), .unresolved "", .unresolved "fen.span"]) := by
    cbv
  obtain ⟨o, ho, heq⟩ := Declaration.map_eq_ok.mp hbuild
  simp only [Prod.mk.injEq] at heq
  exact ⟨o, ho, accounted_of_build ho, heq⟩

end Schema

end OntologyCompiler
