import OntologyCompiler.Proofs.Declarations.Entries
import OntologyCompiler.Resolution.Build

/-!
# Reading definitions and schemas

When the body of a class or an enumeration can be read, and from that when a whole schema can be
built. A build never fails once its declarations are read, so the condition is about reading alone:
bodies have their shape, no property takes the reserved name, and no qualified name comes twice.
-/

namespace OntologyCompiler

namespace Declaration

/-- The shape of the body of a class whose own properties have the given names. -/
structure ClassBody (body : List (String × Json)) (names : List String) : Prop where
  properties : ∃ entries, items? body "properties" = some entries ∧ List.Forall₂ PropertyEntry entries names
  distinct : names.Nodup
  constraints : ∃ entries, items? body "constraints" = some entries ∧ ∀ entry ∈ entries, ConstraintEntry entry
  decodings : ∃ entries, items? body "decodings" = some entries ∧ ∀ entry ∈ entries, DecodingEntry entry

/-- The shape of the body of an enumeration whose members have the given names. -/
structure EnumBody (body : List (String × Json)) (names : List String) : Prop where
  members : ∃ entries, items? body "members" = some entries ∧ List.Forall₂ MemberEntry entries names
  distinct : names.Nodup

/-- Two conditions on the pairs of two lists, the second about the right side only. -/
theorem forall₂_and_right_iff {α β : Type} {r : α → β → Prop} {p : β → Prop} {l : List α} {m : List β} :
    List.Forall₂ (fun a b => r a b ∧ p b) l m ↔ List.Forall₂ r l m ∧ ∀ b ∈ m, p b := by
  induction l generalizing m with
  | nil => cases m <;> simp
  | cons a l ih =>
    cases m with
    | nil => simp
    | cons b m =>
      simp only [List.forall₂_cons, ih, List.forall_mem_cons]
      tauto

/-- A class is read exactly from a body of its shape without the reserved property. -/
theorem readClass_ok_iff {name qualifiedName : String} {body : List (String × Json)} {names : List String} :
    (∃ c, readClass name qualifiedName body = .ok c ∧ c.properties.map (·.name) = names) ↔
      ClassBody body names ∧ reservedProperty ∉ names := by
  simp only [readClass, bind_eq_ok, listField_eq_ok, pure_eq_ok]
  constructor
  · intro hall
    obtain ⟨_, ⟨entries, hentries, ps, hps, centries, hcentries, cs, hcs, dentries, hdentries, ds, hds,
      rfl⟩, rfl⟩ := hall
    obtain ⟨hshape, -, hnodup⟩ := readProperties_ok_iff.mp ⟨ps, hps, rfl⟩
    obtain ⟨hshape, hfree⟩ := forall₂_and_right_iff.mp hshape
    refine ⟨⟨⟨entries, hentries, hshape⟩, hnodup, ⟨centries, hcentries, fun entry hentry => ?_⟩,
      ⟨dentries, hdentries, fun entry hentry => ?_⟩⟩, fun hmem => hfree _ hmem rfl⟩
    · exact readConstraint_ok_iff.mp (readEach_ok_iff.mp ⟨cs, hcs⟩ entry hentry)
    · exact readDecoding_ok_iff.mp (readEach_ok_iff.mp ⟨ds, hds⟩ entry hentry)
  · intro hall
    obtain ⟨⟨⟨entries, hentries, hshape⟩, hnodup, ⟨centries, hcentries, hconstraints⟩, ⟨dentries,
      hdentries, hdecodings⟩⟩, hfree⟩ := hall
    have hshape' := forall₂_and_right_iff.mpr
      ⟨hshape, fun name hname (heq : name = reservedProperty) => hfree (heq ▸ hname)⟩
    obtain ⟨ps, hps, rfl⟩ := readProperties_ok_iff.mpr ⟨hshape', fun _ _ => List.not_mem_nil, hnodup⟩
    obtain ⟨cs, hcs⟩ := readEach_ok_iff.mpr fun entry hentry =>
      (@readConstraint_ok_iff qualifiedName entry).mpr (hconstraints entry hentry)
    obtain ⟨ds, hds⟩ := readEach_ok_iff.mpr fun entry hentry =>
      (@readDecoding_ok_iff qualifiedName entry).mpr (hdecodings entry hentry)
    exact ⟨_, ⟨entries, hentries, ps, hps, centries, hcentries, cs, hcs, dentries, hdentries, ds, hds, rfl⟩,
      rfl⟩

/-- An enumeration is read exactly from a body of its shape. -/
theorem readEnum_ok_iff {name qualifiedName : String} {body : List (String × Json)} :
    (∃ e, readEnum name qualifiedName body = .ok e) ↔ ∃ names, EnumBody body names := by
  simp only [readEnum, bind_eq_ok, listField_eq_ok, pure_eq_ok]
  constructor
  · intro hall
    obtain ⟨_, entries, hentries, ms, hms, rfl⟩ := hall
    obtain ⟨hshape, -, hnodup⟩ := readMembers_ok_iff.mp ⟨ms, hms, rfl⟩
    exact ⟨_, ⟨entries, hentries, hshape⟩, hnodup⟩
  · intro hall
    obtain ⟨names, ⟨entries, hentries, hshape⟩, hnodup⟩ := hall
    obtain ⟨ms, hms, rfl⟩ := readMembers_ok_iff.mpr ⟨hshape, fun _ _ => List.not_mem_nil, hnodup⟩
    exact ⟨_, entries, hentries, ms, hms, rfl⟩

end Declaration

namespace TypeDeclaration

/-- The name of a declared type. -/
def name : TypeDeclaration → String
  | .ofClass c => c.name
  | .ofEnum e => e.name

/-- The qualified name of a declared type. -/
def qualifiedName : TypeDeclaration → String
  | .ofClass c => c.qualifiedName
  | .ofEnum e => e.qualifiedName

end TypeDeclaration

namespace Definition

/-- The names that the property entries of a class definition carry. -/
def propertyNames (d : Definition) : List String :=
  match d.kind, d.body with
  | .ofClass, .object body =>
    ((Declaration.items? body "properties").getD []).filterMap Validation.propertyName?
  | _, _ => []

/-- Whether the body of a definition has the shape of its kind. -/
def WellShaped (d : Definition) : Prop :=
  ∃ body, d.body = .object body ∧
    match d.kind with
    | .ofClass => ∃ names, Declaration.ClassBody body names
    | .ofEnum => ∃ names, Declaration.EnumBody body names

end Definition

namespace Declaration

/-- The name of an entry of the shape of a property is the name in that shape. -/
theorem propertyName?_of_propertyEntry {entry : Json} {name : String} (h : PropertyEntry entry name) :
    Validation.propertyName? entry = some name := by
  obtain ⟨type, encoding, rest, rfl, hrest, -⟩ := h
  match rest, hrest with
  | [], _ => rfl
  | [_], _ => rfl

/-- Entries of the shape of properties carry the names in that shape. -/
theorem filterMap_propertyName? {entries : List Json} {names : List String}
    (h : List.Forall₂ PropertyEntry entries names) :
    entries.filterMap Validation.propertyName? = names := by
  induction h with
  | nil => rfl
  | cons hentry _ ih => rw [List.filterMap_cons_some (propertyName?_of_propertyEntry hentry), ih]

/-- The names of the properties of a class body are those of the definition that holds it. -/
theorem propertyNames_eq {d : Definition} {body : List (String × Json)} {names : List String}
    (hkind : d.kind = .ofClass) (hbody : d.body = .object body) (h : ClassBody body names) :
    d.propertyNames = names := by
  obtain ⟨entries, hentries, hshape⟩ := h.properties
  simp [Definition.propertyNames, hkind, hbody, hentries, filterMap_propertyName? hshape]

/-- What a definition is read as carries its names. -/
theorem readType_names {package : String} {seen : List String} {d : Definition} {t : TypeDeclaration}
    (h : readType package seen d = .ok t) : t.name = d.name ∧ t.qualifiedName = package ++ "." ++ d.name := by
  simp only [readType, guard_eq_ok] at h
  obtain ⟨-, h⟩ := h
  split at h
  next body _ =>
    split at h
    next =>
      obtain ⟨c, hc, rfl⟩ := map_eq_ok.mp h
      simp only [readClass, bind_eq_ok, pure_eq_ok] at hc
      obtain ⟨_, _, _, _, _, _, _, _, _, _, _, _, rfl⟩ := hc
      exact ⟨rfl, rfl⟩
    next =>
      obtain ⟨e, he, rfl⟩ := map_eq_ok.mp h
      simp only [readEnum, bind_eq_ok, pure_eq_ok] at he
      obtain ⟨_, _, _, _, rfl⟩ := he
      exact ⟨rfl, rfl⟩
  next => exact absurd h fail_ne_ok

/-- A definition is read exactly when its qualified name is new, its body has its shape, and no property
takes the reserved name. -/
theorem readType_ok_iff {package : String} {seen : List String} {d : Definition} :
    (∃ t, readType package seen d = .ok t) ↔
      package ++ "." ++ d.name ∉ seen ∧ d.WellShaped ∧ reservedProperty ∉ d.propertyNames := by
  simp only [readType, guard_eq_ok, exists_and_left, and_congr_right_iff, Definition.WellShaped]
  intro _
  cases hbody : d.body with
  | object body =>
    simp only [Json.object.injEq, exists_eq_left']
    cases hkind : d.kind with
    | ofClass =>
      simp only [map_eq_ok]
      constructor
      · intro hall
        obtain ⟨_, c, hc, -⟩ := hall
        obtain ⟨hshape, hfree⟩ := readClass_ok_iff.mp ⟨c, hc, rfl⟩
        exact ⟨⟨_, hshape⟩, by rwa [propertyNames_eq hkind hbody hshape]⟩
      · intro hall
        obtain ⟨⟨names, hshape⟩, hfree⟩ := hall
        rw [propertyNames_eq hkind hbody hshape] at hfree
        obtain ⟨c, hc, -⟩ := readClass_ok_iff.mpr ⟨hshape, hfree⟩
        exact ⟨.ofClass c, c, hc, rfl⟩
    | ofEnum =>
      have hnone : d.propertyNames = [] := by simp [Definition.propertyNames, hkind]
      simp only [map_eq_ok, hnone, List.not_mem_nil, not_false_eq_true, and_true]
      rw [← @readEnum_ok_iff d.name (package ++ "." ++ d.name)]
      constructor
      · rintro ⟨_, e, he, -⟩
        exact ⟨e, he⟩
      · rintro ⟨e, he⟩
        exact ⟨.ofEnum e, e, he, rfl⟩
  | null => simp [fail]
  | boolean value => simp [fail]
  | number value => simp [fail]
  | text value => simp [fail]
  | list items => simp [fail]

/-- A type is read after others if it can be read at all and has a new name. -/
theorem readType_eq_ok_iff {package : String} {seen : List String} {d : Definition} {t : TypeDeclaration} :
    readType package seen d = .ok t ↔ readType package [] d = .ok t ∧ t.qualifiedName ∉ seen := by
  have hname (h : readType package [] d = .ok t) : t.qualifiedName = package ++ "." ++ d.name := (readType_names h).2
  constructor
  · intro h
    have hnew := (readType_names h).2 ▸ (readType_ok_iff.mp ⟨t, h⟩).1
    simp only [readType, guard_eq_ok] at h ⊢
    exact ⟨⟨List.not_mem_nil, h.2⟩, hnew⟩
  · rintro ⟨h, hnew⟩
    rw [hname h] at hnew
    simp only [readType, guard_eq_ok] at h ⊢
    exact ⟨hnew, h.2⟩

/-- Types are read one after another, each with a new qualified name. -/
theorem readsDistinct_readTypes (package : String) :
    ReadsDistinct (readTypes package) (readType package []) fun t => [t.qualifiedName] where
  nil := fun _ => rfl
  cons := by
    intro seen d rest ts
    simp only [readTypes, bind_eq_ok, pure_eq_ok, List.mem_singleton, forall_eq, List.singleton_append]
    constructor
    · rintro ⟨t, ht, us, hus, rfl⟩
      obtain ⟨ht', hnew⟩ := readType_eq_ok_iff.mp ht
      exact ⟨t, ht', hnew, us, (readType_names ht).2 ▸ hus, rfl⟩
    · rintro ⟨t, ht, hnew, us, hus, rfl⟩
      exact ⟨t, readType_eq_ok_iff.mpr ⟨ht, hnew⟩, us, (readType_names ht).2 ▸ hus, rfl⟩

/-- What definitions are read as carries their names in the same order. -/
theorem readTypes_names {package : String} {seen : List String} {ds : List Definition}
    {ts : List TypeDeclaration} (h : readTypes package seen ds = .ok ts) :
    ts.map TypeDeclaration.qualifiedName = ds.map (fun d => package ++ "." ++ d.name) ∧
      ∀ t ∈ ts, t.qualifiedName = package ++ "." ++ t.name := by
  have hread := ((readsDistinct_readTypes package).eq_ok_iff.mp h).1
  constructor
  · exact map_eq_of_forall₂ hread fun d t ht => (readType_names ht).2
  · intro t ht
    obtain ⟨d, -, hd⟩ := (readsDistinct_readTypes package).exists_entry h ht
    rw [(readType_names hd).1, (readType_names hd).2]

/-- Definitions are read exactly when each of them can be and their qualified names are new and
different. -/
theorem readTypes_ok_iff {package : String} {seen : List String} {ds : List Definition} :
    (∃ ts, readTypes package seen ds = .ok ts) ↔
      (∀ d ∈ ds, d.WellShaped ∧ reservedProperty ∉ d.propertyNames) ∧
        (∀ d ∈ ds, package ++ "." ++ d.name ∉ seen) ∧ (ds.map fun d => package ++ "." ++ d.name).Nodup := by
  let shape (d : Definition) (n : String) : Prop :=
    (d.WellShaped ∧ reservedProperty ∉ d.propertyNames) ∧ package ++ "." ++ d.name = n
  have hread (d : Definition) (n : String) :
      (∃ t, readType package [] d = .ok t ∧ t.qualifiedName = n) ↔ shape d n := by
    constructor
    · rintro ⟨t, ht, rfl⟩
      exact ⟨(readType_ok_iff.mp ⟨t, ht⟩).2, (readType_names ht).2.symm⟩
    · rintro ⟨hshape, rfl⟩
      obtain ⟨t, ht⟩ := readType_ok_iff.mpr ⟨List.not_mem_nil, hshape⟩
      exact ⟨t, ht, (readType_names ht).2⟩
  have hnames : (∃ ts, readTypes package seen ds = .ok ts) ↔ ∃ ts, readTypes package seen ds = .ok ts ∧
      ts.map TypeDeclaration.qualifiedName = ds.map fun d => package ++ "." ++ d.name :=
    exists_congr fun ts => (and_iff_left_of_imp fun h => (readTypes_names h).1).symm
  rw [hnames, (readsDistinct_readTypes package).ok_iff hread, List.forall₂_map_right_iff, List.forall₂_same]
  simp only [shape, and_true, List.forall_mem_map]

/-- The types of a package are read after others if they can be read at all and have new names. -/
theorem readTypes_eq_ok_iff {package : String} {seen : List String} {ds : List Definition}
    {ts : List TypeDeclaration} : readTypes package seen ds = .ok ts ↔
      readTypes package [] ds = .ok ts ∧ ∀ t ∈ ts, t.qualifiedName ∉ seen := by
  simp only [(readsDistinct_readTypes package).eq_ok_iff, List.mem_singleton, forall_eq, List.not_mem_nil,
    not_false_eq_true, implies_true, true_and]
  tauto

/-- Reads a package by itself. -/
def readPackage (p : Schema.Package) : Declared PackageDeclaration :=
  (readTypes p.name [] p.definitions).map fun types => ⟨p.name, p.doc.getD "", types⟩

/-- Packages are read one after another, each with types of new qualified names. -/
theorem readsDistinct_readPackages :
    ReadsDistinct readPackages readPackage fun q => q.types.map TypeDeclaration.qualifiedName where
  nil := fun _ => rfl
  cons := by
    intro seen p rest qs
    simp only [readPackages, readPackage, bind_eq_ok, map_eq_ok, pure_eq_ok]
    constructor
    · rintro ⟨ts, hts, us, hus, rfl⟩
      obtain ⟨hts', hnew⟩ := readTypes_eq_ok_iff.mp hts
      rw [qualifiedNames, ← (readTypes_names hts).1] at hus
      exact ⟨_, ⟨ts, hts', rfl⟩, List.forall_mem_map.mpr hnew, us, hus, rfl⟩
    · rintro ⟨_, ⟨ts, hts, rfl⟩, hnew, us, hus, rfl⟩
      rw [(readTypes_names hts).1] at hus
      exact ⟨ts, readTypes_eq_ok_iff.mpr ⟨hts, fun t ht => hnew _ (List.mem_map_of_mem ht)⟩, us, hus, rfl⟩

/-- Packages are read when the first one is and, with its names seen, the others are. -/
theorem readPackages_cons_ok_iff {seen : List String} {p : Schema.Package} {rest : List Schema.Package} :
    (∃ qs, readPackages seen (p :: rest) = .ok qs) ↔
      (∃ ts, readTypes p.name seen p.definitions = .ok ts) ∧
        ∃ qs, readPackages (qualifiedNames p ++ seen) rest = .ok qs := by
  simp only [readPackages, bind_eq_ok, pure_eq_ok]
  constructor
  · intro hall
    obtain ⟨_, ts, hts, qs, hqs, -⟩ := hall
    exact ⟨⟨ts, hts⟩, qs, hqs⟩
  · intro hall
    obtain ⟨⟨ts, hts⟩, qs, hqs⟩ := hall
    exact ⟨_, ts, hts, qs, hqs, rfl⟩

/-- Packages are read exactly when each definition can be and all qualified names are new and
different. -/
theorem readPackages_ok_iff {seen : List String} {ps : List Schema.Package} :
    (∃ qs, readPackages seen ps = .ok qs) ↔
      (∀ p ∈ ps, ∀ d ∈ p.definitions, d.WellShaped ∧ reservedProperty ∉ d.propertyNames) ∧
        (∀ name ∈ ps.flatMap qualifiedNames, name ∉ seen) ∧ (ps.flatMap qualifiedNames).Nodup := by
  induction ps generalizing seen with
  | nil => simp [readPackages]
  | cons p rest ih =>
    have hqualified : ∀ name, name ∈ qualifiedNames p ↔ ∃ d ∈ p.definitions, p.name ++ "." ++ d.name = name :=
      fun name => List.mem_map
    rw [readPackages_cons_ok_iff, readTypes_ok_iff, ih]
    simp only [List.forall_mem_cons, List.flatMap_cons, List.nodup_append, List.mem_append, not_or]
    constructor
    · intro hall
      obtain ⟨⟨hshape, hnew, hnodup⟩, hshapes, hnews, hnodups⟩ := hall
      refine ⟨⟨hshape, hshapes⟩, ?_, hnodup, hnodups, ?_⟩
      · intro name hor
        rcases hor with hname | hname
        · obtain ⟨d, hd, rfl⟩ := (hqualified name).mp hname
          exact hnew d hd
        · exact (hnews name hname).2
      · intro a ha b hb heq
        subst heq
        exact (hnews a hb).1 ha
    · intro hall
      obtain ⟨⟨hshape, hshapes⟩, hnews, hnodup, hnodups, hapart⟩ := hall
      refine ⟨⟨hshape, fun d hd => hnews _ (Or.inl ((hqualified _).mpr ⟨d, hd, rfl⟩)), hnodup⟩, hshapes, ?_,
        hnodups⟩
      exact fun name hname => ⟨fun hmem => hapart name hmem name hname rfl, hnews name (Or.inr hname)⟩

/-- What packages are read as carries their names in the same order. -/
theorem readPackages_names {seen : List String} {ps : List Schema.Package} {qs : List PackageDeclaration}
    (h : readPackages seen ps = .ok qs) :
    qs.map PackageDeclaration.name = ps.map Schema.Package.name ∧
      (qs.flatMap fun q => q.types.map TypeDeclaration.qualifiedName) = ps.flatMap qualifiedNames ∧
        ∀ q ∈ qs, ∀ t ∈ q.types, t.qualifiedName = q.name ++ "." ++ t.name := by
  have hread := (readsDistinct_readPackages.eq_ok_iff.mp h).1
  refine ⟨map_eq_of_forall₂ hread fun p q hq => ?_, ?_, fun q hq => ?_⟩
  · obtain ⟨ts, -, rfl⟩ := map_eq_ok.mp hq
    rfl
  · rw [List.flatMap_def, List.flatMap_def]
    congr 1
    refine map_eq_of_forall₂ hread fun p q hq => ?_
    obtain ⟨ts, hts, rfl⟩ := map_eq_ok.mp hq
    exact (readTypes_names hts).1
  · obtain ⟨p, -, hp⟩ := readsDistinct_readPackages.exists_entry h hq
    obtain ⟨ts, hts, rfl⟩ := map_eq_ok.mp hp
    exact (readTypes_names hts).2

end Declaration

namespace Schema

/-- A build succeeds when the declarations are read; the passes after that never fail. -/
theorem build_eq_ok_iff {s : Schema} {o : Ontology} :
    s.build = .ok o ↔
      ∃ ps, s.declarations = .ok ps ∧ (Ontology.assemble s.name s.version s.doc ps).resolve = o :=
  Declaration.map_eq_ok

/-- A schema can be built exactly when every body has its shape, no property takes the reserved name, and
the qualified names of its types differ. -/
theorem exists_build_iff {s : Schema} :
    (∃ o, s.build = .ok o) ↔
      (∀ p ∈ s.packages, ∀ d ∈ p.definitions, d.WellShaped ∧ reservedProperty ∉ d.propertyNames) ∧
        (s.packages.flatMap Declaration.qualifiedNames).Nodup := by
  have hread : (∃ o, s.build = .ok o) ↔ ∃ ps, Declaration.readPackages [] s.packages = .ok ps := by
    simp only [build_eq_ok_iff]
    constructor
    · rintro ⟨_, ps, hps, -⟩
      exact ⟨ps, hps⟩
    · rintro ⟨ps, hps⟩
      exact ⟨_, ps, hps, rfl⟩
  rw [hread, Declaration.readPackages_ok_iff]
  simp

end Schema

end OntologyCompiler
