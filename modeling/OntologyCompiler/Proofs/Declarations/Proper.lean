import OntologyCompiler.Proofs.Renaming.Moved
import OntologyCompiler.Proofs.Types

/-!
# What is read is proper

Definitions come by kind and name, and so do the types that they are read as. Properties of a class have different
names, and the types that properties and decodings name are not looked up yet.
-/

namespace OntologyCompiler

/-- Types are declared by name, properties have different names, and no type points at an entity yet. -/
structure PackageDeclaration.Proper (p : PackageDeclaration) : Prop where
  classes : p.classes.Pairwise fun c d => compare c.name d.name = .lt
  enums : p.enums.Pairwise fun e f => compare e.name f.name = .lt
  property_names : ∀ c ∈ p.classes, (c.properties.map PropertyDeclaration.name).Nodup
  property_types : ∀ c ∈ p.classes, ∀ q ∈ c.properties, q.type.entity? = none
  decoding_types : ∀ c ∈ p.classes, ∀ d ∈ c.decodings, ∀ t ∈ d.overrideType, t.entity? = none

/-- The kind of a declared type. -/
def TypeDeclaration.kind : TypeDeclaration → TypeKind
  | .ofClass _ => .ofClass
  | .ofEnum _ => .ofEnum

/-- An unbound type points at no entity. -/
theorem ValueType.Unbound.entity?_eq_none {t : ValueType} (h : t.Unbound) : t.entity? = none := by
  rw [entity?, show t.target = initialTarget t.name from h, initialTarget]
  cases ScalarKind.ofKeyword? t.name <;> rfl

/-- Definitions of one kind are listed by name. -/
theorem Schema.Package.pairwise_definitions (p : Schema.Package) :
    p.definitions.Pairwise fun d e => d.kind = e.kind → compare d.name e.name = .lt := by
  have hkind (kind : TypeKind) (m : Option DefinitionMap) :
      (definitionsOf kind m).Pairwise fun d e => d.kind = e.kind → compare d.name e.name = .lt := by
    rw [definitionsOf, List.pairwise_map]
    cases m with
    | none => exact .nil
    | some m =>
      apply m.ascending.imp
      intro a b hlt _
      exact hlt
  refine List.pairwise_append.mpr ⟨hkind _ _, hkind _ _, fun d hd e he heq => ?_⟩
  obtain ⟨_, -, rfl⟩ := List.mem_map.mp hd
  obtain ⟨_, -, rfl⟩ := List.mem_map.mp he
  cases heq

namespace Declaration

/-- What a definition is read as has its kind. -/
theorem readType_kind {package : String} {d : Definition} {t : TypeDeclaration}
    (h : readType package [] d = .ok t) : t.kind = d.kind := by
  simp only [readType, guard_eq_ok] at h
  obtain ⟨-, h⟩ := h
  split at h
  next =>
    split at h
    next hkind =>
      obtain ⟨c, -, rfl⟩ := map_eq_ok.mp h
      exact hkind.symm
    next hkind =>
      obtain ⟨e, -, rfl⟩ := map_eq_ok.mp h
      exact hkind.symm
  next => exact absurd h fail_ne_ok

/-- The type of a decoding is read as an unbound type. -/
theorem unbound_of_readDecoding {owner : String} {entry : Json} {d : Decoding} (h : readDecoding owner entry = .ok d) :
    ∀ t ∈ d.overrideType, t.Unbound := by
  rcases readDecoding_ok_iff.mp ⟨d, h⟩ with ⟨property, rule, rfl | rfl | ⟨type, rfl⟩⟩
  · obtain rfl := Except.ok.inj h
    simp
  · obtain rfl := Except.ok.inj h
    simp
  · obtain rfl := Except.ok.inj h
    intro t ht
    obtain rfl := Option.some.inj ht
    exact ValueType.unbound_parse type

/-- What is read in order is read from entries. -/
theorem exists_entry_of_readEach {α : Type} {read : Json → Declared α} {entries : List Json} {as : List α}
    (h : readEach read entries = .ok as) : ∀ a ∈ as, ∃ entry ∈ entries, read entry = .ok a := by
  induction entries generalizing as with
  | nil =>
    obtain rfl := Except.ok.inj h
    simp
  | cons entry rest ih =>
    simp only [readEach, bind_eq_ok, pure_eq_ok] at h
    obtain ⟨a, ha, bs, hbs, rfl⟩ := h
    refine List.forall_mem_cons.mpr ⟨⟨entry, List.mem_cons_self, ha⟩, fun b hb => ?_⟩
    obtain ⟨e, he, hread⟩ := ih hbs b hb
    exact ⟨e, List.mem_cons_of_mem _ he, hread⟩

section Packages

variable {ps : List Schema.Package} {qs : List PackageDeclaration} (h : readPackages [] ps = .ok qs)
  {q : PackageDeclaration} (hq : q ∈ qs)

include h hq

/-- Types of one kind in a package are listed by name. -/
theorem pairwise_types_of_readPackages : q.types.Pairwise fun t u => t.kind = u.kind → compare t.name u.name = .lt := by
  obtain ⟨p, -, hp⟩ := readsDistinct_readPackages.exists_entry h hq
  obtain ⟨ts, hts, rfl⟩ := map_eq_ok.mp hp
  apply pairwise_of_forall₂ ((readsDistinct_readTypes p.name).eq_ok_iff.mp hts).1 p.pairwise_definitions
  intro d e t u ht hu hlt hkind
  rw [(readType_names ht).1, (readType_names hu).1]
  rw [readType_kind ht, readType_kind hu] at hkind
  exact hlt hkind

/-- The decodings of a declared class are read with unbound types. -/
theorem unbound_decoding_of_readPackages {c : ClassDeclaration} (hc : c ∈ q.classes) {d : Decoding}
    (hd : d ∈ c.decodings) : ∀ t ∈ d.overrideType, t.Unbound := by
  obtain ⟨_, -, e, -, -, body, -, hbody⟩ := exists_definition_of_readPackages h hq hc
  simp only [readClass, bind_eq_ok, pure_eq_ok] at hbody
  obtain ⟨_, _, _, _, _, _, _, _, _, _, ds, hds, rfl⟩ := hbody
  obtain ⟨entry, -, hentry⟩ := exists_entry_of_readEach hds d hd
  exact unbound_of_readDecoding hentry

/-- What packages are read as is proper. -/
theorem proper_of_readPackages : q.Proper where
  classes := by
    refine List.pairwise_filterMap.mpr ((pairwise_types_of_readPackages h hq).imp ?_)
    rintro (c | e) (d | f) hlt x hx y hy
    · cases hx
      cases hy
      exact hlt rfl
    · cases hy
    · cases hx
    · cases hx
  enums := by
    refine List.pairwise_filterMap.mpr ((pairwise_types_of_readPackages h hq).imp ?_)
    rintro (c | e) (d | f) hlt x hx y hy
    · cases hx
    · cases hx
    · cases hy
    · cases hx
      cases hy
      exact hlt rfl
  property_names := by
    intro c hc
    obtain ⟨_, -, d, -, -, body, -, hbody⟩ := exists_definition_of_readPackages h hq hc
    exact (readClass_ok_iff.mp ⟨c, hbody, rfl⟩).1.distinct
  property_types := by
    intro c hc p hp
    exact (unbound_of_readPackages h hq hc p hp).entity?_eq_none
  decoding_types := by
    intro c hc d hd t ht
    exact (unbound_decoding_of_readPackages h hq hc hd t ht).entity?_eq_none

end Packages

end Declaration

end OntologyCompiler
