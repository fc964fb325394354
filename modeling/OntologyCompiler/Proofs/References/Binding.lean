import OntologyCompiler.Proofs.Declarations.Proper
import OntologyCompiler.Proofs.Loading.References

/-!
# What types are bound to

The types of properties and decodings come unbound out of the reading and are looked up once, by name. No
keyword has a dot and every name in the index has one, so whether a type is a scalar, bound or unresolved is
decided by its name alone.
-/

namespace OntologyCompiler

namespace ScalarKind

/-- A name is the keyword of the scalar that it stands for. -/
theorem ofKeyword?_eq_some_iff {name : String} {kind : ScalarKind} :
    ofKeyword? name = some kind ↔ name = kind.keyword := by
  constructor
  · intro h
    have hkeyword : kind.keyword = name := by simpa using List.find?_some h
    exact hkeyword.symm
  · intro h
    rw [h, ofKeyword?_keyword]

/-- Different scalars have different keywords. -/
theorem keyword_injective {kind kind' : ScalarKind} (h : kind.keyword = kind'.keyword) : kind = kind' := by
  have hsame := ofKeyword?_keyword kind
  rw [h, ofKeyword?_keyword] at hsame
  exact (Option.some.inj hsame).symm

/-- A keyword has no dot. -/
theorem keyword_ne_append (kind : ScalarKind) (package typeName : String) :
    kind.keyword ≠ package ++ "." ++ typeName := by
  intro h
  have hdot : '.' ∈ kind.keyword.toList := by simp [h]
  have hnone : '.' ∉ kind.keyword.toList := by cases kind <;> decide
  exact hnone hdot

end ScalarKind

namespace ValueType

/-- What a type points at is decided by its name: a name in the index, the keyword of a scalar, or neither. -/
structure BoundIn (index : OrderedMap String EntityId) (t : ValueType) : Prop where
  resolved : ∀ e, t.target = .resolved e ↔ index.get? t.name = some e
  scalar : ∀ kind, t.target = .scalar kind ↔ t.name = kind.keyword
  unresolved : ∀ n, t.target = .unresolved n ↔
    n = t.name ∧ index.get? t.name = none ∧ ∀ kind, t.name ≠ ScalarKind.keyword kind

variable {index : OrderedMap String EntityId} {t : ValueType}

/-- Binding keeps the name of a type. -/
theorem name_bindType : (Ontology.bindType index t).name = t.name := by
  obtain ⟨target, htarget⟩ := Ontology.bindType_eq index t
  rw [htarget]

/-- An unbound type named by a keyword is the scalar. -/
theorem Unbound.target_eq_scalar {kind : ScalarKind} (h : t.Unbound) (hname : t.name = kind.keyword) :
    t.target = .scalar kind := by
  rw [show t.target = initialTarget t.name from h, initialTarget, hname, ScalarKind.ofKeyword?_keyword]

/-- An unbound type named by no keyword is unresolved. -/
theorem Unbound.target_eq_unresolved (h : t.Unbound) (hname : ∀ kind, t.name ≠ ScalarKind.keyword kind) :
    t.target = .unresolved t.name := by
  have hnone : ScalarKind.ofKeyword? t.name = none := by
    rw [Option.eq_none_iff_forall_ne_some]
    exact fun kind hkind => hname kind (ScalarKind.ofKeyword?_eq_some_iff.mp hkind)
  rw [show t.target = initialTarget t.name from h, initialTarget, hnone]

/-- An unbound type is bound by its name if no keyword is in the index. -/
theorem Unbound.boundIn_bindType (h : t.Unbound) (hindex : ∀ kind, index.get? (ScalarKind.keyword kind) = none) :
    (Ontology.bindType index t).BoundIn index := by
  by_cases hkeyword : ∃ kind, t.name = ScalarKind.keyword kind
  · obtain ⟨kind, hname⟩ := hkeyword
    have htarget := h.target_eq_scalar hname
    have hbind : Ontology.bindType index t = t := by simp [Ontology.bindType, isResolved, htarget]
    rw [hbind]
    refine ⟨fun e => ?_, fun kind' => ?_, fun n => ?_⟩
    · simp [htarget, hname, hindex]
    · simp only [htarget, TypeTarget.scalar.injEq, hname]
      exact ⟨congrArg _, ScalarKind.keyword_injective⟩
    · simp only [htarget, reduceCtorEq, false_iff, not_and]
      exact fun _ _ hno => hno kind hname
  · have hno : ∀ kind, t.name ≠ ScalarKind.keyword kind := fun kind hname => hkeyword ⟨kind, hname⟩
    have htarget := h.target_eq_unresolved hno
    cases hget : index.get? t.name with
    | some entity =>
      have hbind : Ontology.bindType index t = { t with target := .resolved entity } := by
        simp [Ontology.bindType, isResolved, htarget, hget]
      rw [hbind]
      refine ⟨fun e => ?_, fun kind => ?_, fun n => ?_⟩
      · simp [hget]
      · simp [hno kind]
      · simp [hget]
    | none =>
      have hbind : Ontology.bindType index t = t := by simp [Ontology.bindType, isResolved, htarget, hget]
      rw [hbind]
      refine ⟨fun e => ?_, fun kind => ?_, fun n => ?_⟩
      · simp [htarget, hget]
      · simp [htarget, hno kind]
      · simp [htarget, hget, hno, eq_comm]

/-- An unbound type is found missing exactly if its name is no keyword and not in the index. -/
theorem Unbound.danglingType?_eq_ite (h : t.Unbound) (owner : String) :
    Ontology.danglingType? index owner t =
      if ScalarKind.ofKeyword? t.name = none ∧ index.get? t.name = none then some (.unresolvedType owner t.name)
      else none := by
  rw [Ontology.danglingType?, isResolved, show t.target = initialTarget t.name from h, initialTarget]
  cases ScalarKind.ofKeyword? t.name <;> cases index.get? t.name <;> simp

end ValueType

namespace Ontology

variable {o : Ontology}

/-- The types of all properties and decodings. -/
def types (o : Ontology) : List ValueType :=
  o.properties.map Property.type ++ (o.classes.flatMap Class.decodings).filterMap Decoding.overrideType

/-- A decoding with its type bound. -/
def bindDecoding (index : OrderedMap String EntityId) (d : Decoding) : Decoding :=
  { d with overrideType := d.overrideType.map (bindType index) }

/-- The qualified name and the decodings of each class. -/
def decodingTable (o : Ontology) : List (String × List Decoding) :=
  o.classes.map fun c => (c.qualifiedName, c.decodings)

/-- Binding bases leaves decodings alone. -/
theorem decodingTable_bindBases (o : Ontology) : o.bindBases.decodingTable = o.decodingTable := by
  simp [decodingTable, bindBases, bindBase, Function.comp_def]

/-- Cutting inheritance cycles leaves decodings alone. -/
theorem decodingTable_cutInheritanceCycles (o : Ontology) : o.cutInheritanceCycles.decodingTable = o.decodingTable := by
  refine foldl_keeps decodingTable (fun o id => ?_) _ o
  unfold cutCycleAt
  split
  · rfl
  · exact map_classes_modifyClass fun _ => rfl

/-- Breaking circular imports leaves decodings alone. -/
theorem decodingTable_breakCircularImports (o : Ontology) : o.breakCircularImports.decodingTable = o.decodingTable := by
  refine foldl_keeps decodingTable (fun o pair => ?_) _ o
  unfold deferImport
  split
  · dsimp only
    split
    · exact map_classes_modifyClass fun _ => rfl
    · rfl
  · rfl

/-- The decodings of a resolved ontology are those given with their types bound. -/
theorem decodingTable_resolve (o : Ontology) :
    o.resolve.decodingTable = o.decodingTable.map fun entry => (entry.1, entry.2.map (bindDecoding o.index)) := by
  change (Ontology.breakCircularImports _).decodingTable = _
  have hbefore : o.bindBases.cutInheritanceCycles.decodingTable = o.decodingTable := by
    rw [decodingTable_cutInheritanceCycles, decodingTable_bindBases]
  have hindex : o.bindBases.cutInheritanceCycles.index = o.index := by
    have hfixed := (fixed_cutInheritanceCycles o.bindBases).trans (fixed_bindBases o)
    exact (congrArg Ontology.index hfixed :)
  rw [decodingTable_breakCircularImports, ← hbefore, ← hindex]
  simp only [decodingTable, computeImports, bindTypes, List.map_map]
  rfl

/-- The types of an ontology are those of its properties and of the decodings in its table. -/
theorem types_eq (o : Ontology) : o.types = o.properties.map Property.type ++
    (o.decodingTable.flatMap Prod.snd).filterMap Decoding.overrideType := by
  rw [types, decodingTable, List.flatMap_map]

/-- The types of a resolved ontology are those given, bound. -/
theorem types_resolve (o : Ontology) : o.resolve.types = o.types.map (bindType o.index) := by
  rw [types_eq, types_eq, properties_resolve, decodingTable_resolve, List.map_append, List.map_map, List.map_map]
  congr 1
  rw [List.flatMap_map, List.map_filterMap, ← List.map_flatMap, List.filterMap_map]
  rfl

end Ontology

/-- An assembled class has the decodings of a declared one. -/
theorem Assembly.exists_declaration_of_mem_classes {ps : List PackageDeclaration} {c : Class} (h : c ∈ classes ps) :
    ∃ q ∈ ps, ∃ d ∈ q.classes, c.decodings = d.decodings := by
  obtain ⟨⟨⟨package, d⟩, i⟩, hd, rfl⟩ := List.mem_map.mp h
  have hlisted : (package, d) ∈ classList ps := List.mem_of_getElem? (List.mem_zipIdx_iff_getElem?.mp hd)
  obtain ⟨q, hq, hdq⟩ := mem_classList_iff.mp hlisted
  exact ⟨q, List.mem_of_getElem? hq, d, hdq, rfl⟩

namespace Schema

variable {s : Schema} {o : Ontology} {ps : List PackageDeclaration}

/-- The declarations of a schema are assembled with unbound types. -/
theorem unbound_of_mem_types (h : s.declarations = .ok ps) {t : ValueType}
    (ht : t ∈ (Ontology.assemble s.name s.version s.doc ps).types) : t.Unbound := by
  rcases List.mem_append.mp ht with ht | ht
  · obtain ⟨p, hp, rfl⟩ := List.mem_map.mp ht
    obtain ⟨q, hq, c, hc, d, hd, -, htype, -⟩ := Assembly.exists_declaration_of_mem_properties hp
    exact htype ▸ Declaration.unbound_of_readPackages h hq hc d hd
  · obtain ⟨d, hd, ht⟩ := List.mem_filterMap.mp ht
    obtain ⟨c, hc, hd⟩ := List.mem_flatMap.mp hd
    obtain ⟨q, hq, e, he, hdecodings⟩ := Assembly.exists_declaration_of_mem_classes hc
    exact Declaration.unbound_decoding_of_readPackages h hq he (hdecodings ▸ hd) t ht

/-- No keyword is in the index of a built ontology. -/
theorem get?_index_keyword (h : s.build = .ok o) (kind : ScalarKind) : o.index.get? kind.keyword = none := by
  rw [Option.eq_none_iff_forall_ne_some]
  intro entity hentity
  obtain ⟨p, -, typeName, hname⟩ := exists_package_of_get?_index h hentity
  exact kind.keyword_ne_append p.name typeName hname

/-- In a built ontology every type is bound by its name. -/
theorem boundIn_of_build (h : s.build = .ok o) : ∀ t ∈ o.types, t.BoundIn o.index := by
  have hkeyword := get?_index_keyword h
  obtain ⟨ps, hps, rfl⟩ := build_eq_ok_iff.mp h
  rw [index_resolve_assemble] at hkeyword ⊢
  rw [Ontology.types_resolve]
  intro t ht
  obtain ⟨u, hu, rfl⟩ := List.mem_map.mp ht
  exact (unbound_of_mem_types hps hu).boundIn_bindType hkeyword

end Schema

end OntologyCompiler
