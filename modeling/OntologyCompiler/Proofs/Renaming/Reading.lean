import OntologyCompiler.Proofs.Renaming.Declared

/-!
# Reading reordered schemas

Packages, properties and members are read one after another, and a reading fails only at a faulty entry or at a
name that was seen before. Neither depends on the order, so a reordered schema is read exactly if the schema is,
and its declarations are reordered.
-/

namespace OntologyCompiler

namespace Json

/-- A field stays the same, or its value is a list in another order if it has the key. -/
inductive ReorderedField (key : String) : String × Json → String × Json → Prop
  | same (e : String × Json) : ReorderedField key e e
  | list {items items' : List Json} (h : items.Perm items') : ReorderedField key (key, .list items) (key, .list items')

/-- A value stays the same, or a list under the key of an object is in another order. -/
inductive Reordered (key : String) : Json → Json → Prop
  | same (body : Json) : Reordered key body body
  | object {fields fields' : List (String × Json)} (h : List.Forall₂ (ReorderedField key) fields fields') :
    Reordered key (.object fields) (.object fields')

end Json

/-- The key of the entries of a definition. -/
def TypeKind.entriesKey : TypeKind → String
  | .ofClass => "properties"
  | .ofEnum => "members"

/-- A definition with its properties or members in another order. -/
structure Definition.Reordered (d d' : Definition) : Prop where
  kind_eq : d'.kind = d.kind
  name_eq : d'.name = d.name
  body : Json.Reordered d.kind.entriesKey d.body d'.body

/-- A package with the properties and members of its types in another order. -/
structure Schema.Package.Reordered (p p' : Schema.Package) : Prop where
  name_eq : p'.name = p.name
  doc_eq : p'.doc = p.doc
  definitions : List.Forall₂ Definition.Reordered p.definitions p'.definitions

/-- A schema with its packages, their properties and their members in another order. -/
structure Schema.Reordered (s s' : Schema) : Prop where
  name_eq : s'.name = s.name
  version_eq : s'.version = s.version
  doc_eq : s'.doc = s.doc
  packages : Shuffled Schema.Package.Reordered s.packages s'.packages

section Symmetry

/-- Reordering a field can be undone. -/
theorem Json.ReorderedField.symm {key : String} {e e' : String × Json} (h : ReorderedField key e e') :
    ReorderedField key e' e := by
  cases h with
  | same e => exact .same e
  | list h => exact .list h.symm

/-- Reordering a list can be undone. -/
theorem Json.Reordered.symm {key : String} {b b' : Json} (h : Reordered key b b') : Reordered key b' b := by
  cases h with
  | same b => exact .same b
  | object h => exact .object (h.flip.imp fun _ _ => ReorderedField.symm)

/-- Reordering a definition can be undone. -/
theorem Definition.Reordered.symm {d d' : Definition} (h : d.Reordered d') : d'.Reordered d where
  kind_eq := h.kind_eq.symm
  name_eq := h.name_eq.symm
  body := h.kind_eq ▸ h.body.symm

/-- Reordering a package can be undone. -/
theorem Schema.Package.Reordered.symm {p p' : Schema.Package} (h : p.Reordered p') : p'.Reordered p where
  name_eq := h.name_eq.symm
  doc_eq := h.doc_eq.symm
  definitions := h.definitions.flip.imp fun _ _ => Definition.Reordered.symm

/-- Reordering a schema can be undone. -/
theorem Schema.Reordered.symm {s s' : Schema} (h : s.Reordered s') : s'.Reordered s where
  name_eq := h.name_eq.symm
  version_eq := h.version_eq.symm
  doc_eq := h.doc_eq.symm
  packages := h.packages.symm.imp fun _ _ => Schema.Package.Reordered.symm

end Symmetry

namespace Json

variable {key : String} {fields fields' : List (String × Json)}

/-- Fields with other keys keep their values. -/
theorem field?_eq_of_reordered (h : List.Forall₂ (ReorderedField key) fields fields') {k : String} (hk : k ≠ key) :
    field? k fields' = field? k fields := by
  induction h with
  | nil => rfl
  | cons he _ ih =>
    cases he with
    | same => simp only [field?, ih]
    | list _ => simp only [field?, ih, if_neg (Ne.symm hk)]

/-- The field with the key keeps its value, or it is a list before and after. -/
theorem field?_eq_or_perm (h : List.Forall₂ (ReorderedField key) fields fields') :
    field? key fields' = field? key fields ∨ ∃ items items', field? key fields = some (.list items) ∧
      field? key fields' = some (.list items') ∧ items.Perm items' := by
  induction h with
  | nil => exact Or.inl rfl
  | @cons e _ _ _ he _ ih =>
    cases he with
    | same =>
      by_cases hkey : e.1 = key
      · simp only [field?, if_pos hkey, true_or]
      · simpa only [field?, if_neg hkey] using ih
    | list hperm =>
      simp only [field?, if_true]
      exact Or.inr ⟨_, _, rfl, rfl, hperm⟩

end Json

namespace Declaration

section Distinct

variable {ε α : Type} {go : List String → List ε → Declared (List α)} {read : ε → Declared α}
  {keys : α → List String}

/-- Corresponding entries in another order are read as well, if each of them is read with the same keys. -/
theorem ReadsDistinct.exists_of_shuffled (h : ReadsDistinct go read keys) {related : ε → ε → Prop}
    {outcome : α → α → Prop} {entries entries' : List ε} {seen : List String} {as : List α}
    (hentries : Shuffled related entries entries')
    (hread : ∀ e e' a, related e e' → read e = .ok a → ∃ a', read e' = .ok a' ∧ outcome a a')
    (hkeys : ∀ a a', outcome a a' → ∀ key, key ∈ keys a' ↔ key ∈ keys a) (hgo : go seen entries = .ok as) :
    ∃ as', go seen entries' = .ok as' ∧ Shuffled outcome as as' := by
  obtain ⟨has, hnew, hapart⟩ := h.eq_ok_iff.mp hgo
  obtain ⟨as', has', houtcome⟩ := hentries.exists_forall₂ (fun e _ e' a => hread e e' a) has
  refine ⟨as', h.eq_ok_iff.mpr ⟨has', ?_, ?_⟩, houtcome⟩
  · intro a' ha' key hkey
    obtain ⟨a, ha, haa'⟩ := houtcome.symm.exists_right ha'
    exact hnew a ha key ((hkeys a a' haa' key).mp hkey)
  · apply houtcome.pairwise hapart
    · intro b c hbc key hb hc
      exact hbc key hc hb
    · intro a b c d hac hbd hab key hd hc
      exact hab key ((hkeys b d hbd key).mp hd) ((hkeys a c hac key).mp hc)

/-- Permuted entries are read in the same order. -/
theorem ReadsDistinct.exists_of_perm (h : ReadsDistinct go read keys) {entries entries' : List ε}
    {seen : List String} {as : List α} (hperm : entries.Perm entries') (hgo : go seen entries = .ok as) :
    ∃ as', go seen entries' = .ok as' ∧ as.Perm as' := by
  have hread (e e' : ε) (a : α) (hee' : e = e') (ha : read e = .ok a) : ∃ a', read e' = .ok a' ∧ a = a' :=
    ⟨a, hee' ▸ ha, rfl⟩
  obtain ⟨as', hgo', has'⟩ := h.exists_of_shuffled (.of_perm hperm) hread (fun _ _ heq _ => heq ▸ Iff.rfl) hgo
  exact ⟨as', hgo', has'.perm⟩

end Distinct

section Bodies

variable {key : String} {fields fields' : List (String × Json)}
  (h : List.Forall₂ (Json.ReorderedField key) fields fields')

include h

/-- A list field is read as a permuted list. -/
theorem exists_listField {owner : String} {items : List Json} (hitems : listField owner fields key = .ok items) :
    ∃ items', listField owner fields' key = .ok items' ∧ items.Perm items' := by
  rcases Json.field?_eq_or_perm h with hsame | ⟨listed, listed', hlisted, hlisted', hperm⟩
  · exact ⟨items, by rwa [listField, hsame], .refl items⟩
  · rw [listField, hlisted] at hitems
    obtain rfl := Except.ok.inj hitems
    exact ⟨listed', by rw [listField, hlisted'], hperm⟩

/-- Other list fields are read as before. -/
theorem listField_eq {owner k : String} (hk : k ≠ key) : listField owner fields' k = listField owner fields k := by
  rw [listField, listField, Json.field?_eq_of_reordered h hk]

/-- Other texts are read as before. -/
theorem textOrEmpty_eq {k : String} (hk : k ≠ key) : textOrEmpty fields' k = textOrEmpty fields k := by
  rw [textOrEmpty, textOrEmpty, Json.field?_eq_of_reordered h hk]

/-- Other flags are read as before. -/
theorem flagOrFalse_eq {k : String} (hk : k ≠ key) : flagOrFalse fields' k = flagOrFalse fields k := by
  rw [flagOrFalse, flagOrFalse, Json.field?_eq_of_reordered h hk]

end Bodies

/-- A class with its properties in another order is read as one. -/
theorem exists_readClass {name qualifiedName : String} {fields fields' : List (String × Json)}
    (h : List.Forall₂ (Json.ReorderedField "properties") fields fields') {c : ClassDeclaration}
    (hc : readClass name qualifiedName fields = .ok c) :
    ∃ c', readClass name qualifiedName fields' = .ok c' ∧ c.Reordered c' := by
  simp only [readClass, bind_eq_ok, pure_eq_ok] at hc ⊢
  obtain ⟨entries, hentries, ps, hps, constraints, hconstraints, cs, hcs, decodings, hdecodings, ds, hds, rfl⟩ := hc
  obtain ⟨entries', hentries', hperm⟩ := exists_listField h hentries
  obtain ⟨ps', hps', hpsperm⟩ := (readsDistinct_readProperties _ _).exists_of_perm hperm hps
  simp only [Json.field?_eq_of_reordered h, listField_eq h, textOrEmpty_eq h, flagOrFalse_eq h, ne_eq, String.reduceEq,
    not_false_eq_true]
  exact ⟨_, ⟨entries', hentries', ps', hps', constraints, hconstraints, cs, hcs, decodings, hdecodings, ds, hds, rfl⟩,
    rfl, hpsperm⟩

/-- An enumeration with its members in another order is read as the same. -/
theorem readEnum_of_reordered {name qualifiedName : String} {fields fields' : List (String × Json)}
    (h : List.Forall₂ (Json.ReorderedField "members") fields fields') {e : EnumDeclaration}
    (he : readEnum name qualifiedName fields = .ok e) : readEnum name qualifiedName fields' = .ok e := by
  simp only [readEnum, bind_eq_ok, pure_eq_ok] at he ⊢
  obtain ⟨entries, hentries, ms, hms, rfl⟩ := he
  obtain ⟨entries', hentries', hperm⟩ := exists_listField h hentries
  obtain ⟨ms', hms', hmsperm⟩ := (readsDistinct_readMembers _).exists_of_perm hperm hms
  have hnames : (ms'.map EnumMember.name).Nodup := (readMembers_ok_iff.mp ⟨ms', hms', rfl⟩).2.2
  have hsorted := mergeSort_key_eq_of_perm compare EnumMember.name hmsperm.symm fun a ha b hb heq =>
    List.inj_on_of_nodup_map hnames ha hb (Std.LawfulEqOrd.eq_of_compare heq)
  simp only [textOrEmpty_eq h, flagOrFalse_eq h, ne_eq, String.reduceEq, not_false_eq_true]
  exact ⟨entries', hentries', ms', hms', by rw [hsorted]⟩

/-- A type with its properties or members in another order is read as one. -/
theorem exists_readType {package : String} {d d' : Definition} (h : d.Reordered d') {t : TypeDeclaration}
    (ht : readType package [] d = .ok t) : ∃ t', readType package [] d' = .ok t' ∧ t.Reordered t' := by
  obtain ⟨_, _, body⟩ := d
  obtain ⟨kind, name, body'⟩ := d'
  obtain ⟨rfl, rfl, hbody⟩ := h
  cases hbody with
  | same => exact ⟨t, ht, .refl t⟩
  | object hfields =>
    simp only [readType, guard_eq_ok] at ht ⊢
    cases kind with
    | ofClass =>
      obtain ⟨hnew, ht⟩ := ht
      obtain ⟨c, hc, rfl⟩ := map_eq_ok.mp ht
      obtain ⟨c', hc', hreordered⟩ := exists_readClass hfields hc
      exact ⟨_, ⟨hnew, map_eq_ok.mpr ⟨c', hc', rfl⟩⟩, .ofClass hreordered⟩
    | ofEnum =>
      obtain ⟨hnew, ht⟩ := ht
      obtain ⟨e, he, rfl⟩ := map_eq_ok.mp ht
      exact ⟨_, ⟨hnew, map_eq_ok.mpr ⟨e, readEnum_of_reordered hfields he, rfl⟩⟩, .ofEnum e⟩

/-- A package with the entries of its types in another order is read as one. -/
theorem exists_readPackage {p p' : Schema.Package} (h : p.Reordered p') {q : PackageDeclaration}
    (hq : readPackage p = .ok q) : ∃ q', readPackage p' = .ok q' ∧ q.Reordered q' := by
  obtain ⟨ts, hts, rfl⟩ := map_eq_ok.mp hq
  have hkeys (t t' : TypeDeclaration) (ht : t.Reordered t') (key : String) :
      key ∈ [t'.qualifiedName] ↔ key ∈ [t.qualifiedName] := by
    rw [ht.qualifiedName_eq]
  obtain ⟨ts', hts', htypes⟩ := (readsDistinct_readTypes p.name).exists_of_shuffled (.of_forall₂ h.definitions)
    (fun d d' t hd ht => exists_readType hd ht) hkeys hts
  rw [readPackage, h.name_eq, h.doc_eq]
  exact ⟨_, map_eq_ok.mpr ⟨ts', hts', rfl⟩, rfl, rfl, htypes⟩

/-- Packages in another order, with the entries of their types in another order, are read as such. -/
theorem exists_readPackages {ps ps' : List Schema.Package} (h : Shuffled Schema.Package.Reordered ps ps')
    {qs : List PackageDeclaration} (hqs : readPackages [] ps = .ok qs) :
    ∃ qs', readPackages [] ps' = .ok qs' ∧ Shuffled PackageDeclaration.Reordered qs qs' := by
  apply readsDistinct_readPackages.exists_of_shuffled h (fun p p' q hp hq => exists_readPackage hp hq) ?_ hqs
  intro q q' hq key
  exact (hq.types.perm_map fun t t' ht => ht.qualifiedName_eq.symm).mem_iff.symm

end Declaration

end OntologyCompiler
