import Mathlib.Data.List.Forall2
import Mathlib.Data.List.Nodup
import OntologyCompiler.Resolution.Declaration
import OntologyCompiler.Schema.Validation

/-!
# Reading the entries of a definition

The shape of each kind of entry, and for the reader of each kind the exact condition of its success.
Names of properties and members must be new within their list. A reader is opened here only; later
modules use its condition.
-/

namespace OntologyCompiler

/-- An item has a counterpart in its place. -/
theorem exists_of_forall₂ {α β : Type} {related : α → β → Prop} {l : List α} {l' : List β}
    (h : List.Forall₂ related l l') {a : α} (ha : a ∈ l) : ∃ b ∈ l', related a b := by
  induction h with
  | nil => cases ha
  | @cons c d _ _ hcd _ ih =>
    rcases List.mem_cons.mp ha with rfl | ha
    · exact ⟨d, List.mem_cons_self, hcd⟩
    · obtain ⟨b, hb, hab⟩ := ih ha
      exact ⟨b, List.mem_cons_of_mem _ hb, hab⟩

/-- Images of items in corresponding places that are equal make equal lists. -/
theorem map_eq_of_forall₂ {α β γ : Type} {related : α → β → Prop} {f : α → γ} {g : β → γ} {l : List α} {l' : List β}
    (h : List.Forall₂ related l l') (himages : ∀ a b, related a b → g b = f a) : l'.map g = l.map f := by
  induction h with
  | nil => rfl
  | cons hab _ ih => rw [List.map_cons, List.map_cons, himages _ _ hab, ih]

namespace Declaration

/-- A sequence of readings succeeds when each of them does. -/
theorem bind_eq_ok {α β : Type} {x : Declared α} {f : α → Declared β} {b : β} :
    x >>= f = .ok b ↔ ∃ a, x = .ok a ∧ f a = .ok b := by
  cases x <;> simp [bind, Except.bind]

/-- A reading that only wraps its argument succeeds with it. -/
theorem pure_eq_ok {α : Type} {a b : α} : (pure a : Declared α) = .ok b ↔ a = b := by
  simp [pure, Except.pure]

/-- A transformed reading succeeds when the reading does. -/
theorem map_eq_ok {α β : Type} {x : Declared α} {f : α → β} {b : β} :
    x.map f = .ok b ↔ ∃ a, x = .ok a ∧ f a = b := by
  cases x <;> simp [Except.map]

/-- A fault is no success. -/
theorem fail_ne_ok {α : Type} {entity : String} {fault : StructureFault} {a : α} :
    fail entity fault ≠ .ok a := by
  simp [fail]

/-- A reading behind a check succeeds when the check passes and the reading succeeds. -/
theorem guard_eq_ok {α β : Type} {c : Prop} [Decidable c] {entity : String} {fault : StructureFault}
    {f : α → Declared β} {x : Declared β} {b : β} :
    (if c then fail entity fault >>= f else x) = .ok b ↔ ¬c ∧ x = .ok b := by
  split <;> simp_all [fail, bind, Except.bind]

/-- The items of a list field that may be absent or null; nothing for any other value. -/
def items? (body : List (String × Json)) (key : String) : Option (List Json) :=
  match Json.field? key body with
  | none => some []
  | some .null => some []
  | some (.list items) => some items
  | some _ => none

/-- A list field is read when it has items. -/
theorem listField_eq_ok {owner key : String} {body : List (String × Json)} {items : List Json} :
    listField owner body key = .ok items ↔ items? body key = some items := by
  unfold listField items?
  split <;> simp_all [fail]

/-- An entry is read as a tuple when it is a list of an allowed length. -/
theorem tuple_eq_ok {owner : String} {part : SchemaPart} {least most : Nat} {entry : Json}
    {fields : List Json} :
    tuple owner part least most entry = .ok fields ↔
      entry = .list fields ∧ least ≤ fields.length ∧ fields.length ≤ most := by
  cases entry with
  | list items =>
    simp only [tuple, Json.list.injEq]
    split
    next hlength =>
      simp only [fail, reduceCtorEq, false_iff, not_and]
      intro heq
      subst heq
      omega
    next hlength =>
      simp only [Except.ok.injEq]
      constructor
      · intro heq
        subst heq
        exact ⟨rfl, by omega, by omega⟩
      · exact fun h => h.1
  | null => simp [tuple, fail]
  | boolean value => simp [tuple, fail]
  | number value => simp [tuple, fail]
  | text value => simp [tuple, fail]
  | object fields => simp [tuple, fail]

/-- A field is read as text when it is one. -/
theorem textAt_eq_ok {owner : String} {part : SchemaPart} {fields : List Json} {position : Nat}
    {s : String} : textAt owner part fields position = .ok s ↔ fields[position]? = some (.text s) := by
  unfold textAt
  split <;> simp_all [fail]

/-- Entries are read one after another, and none may have a key that was seen before. -/
structure ReadsDistinct {ε α : Type} (go : List String → List ε → Declared (List α)) (read : ε → Declared α)
    (keys : α → List String) : Prop where
  nil : ∀ seen, go seen [] = .ok []
  cons : ∀ seen entry rest as, go seen (entry :: rest) = .ok as ↔
    ∃ a, read entry = .ok a ∧ (∀ key ∈ keys a, key ∉ seen) ∧ ∃ bs, go (keys a ++ seen) rest = .ok bs ∧ a :: bs = as

namespace ReadsDistinct

variable {ε α : Type} {go : List String → List ε → Declared (List α)} {read : ε → Declared α}
  {keys : α → List String} {seen : List String} {entries : List ε}

/-- Entries are read exactly if each of them is and all keys are new and different. -/
theorem eq_ok_iff (h : ReadsDistinct go read keys) {as : List α} :
    go seen entries = .ok as ↔ List.Forall₂ (fun entry a => read entry = .ok a) entries as ∧
      (∀ a ∈ as, ∀ key ∈ keys a, key ∉ seen) ∧ as.Pairwise fun a b => ∀ key ∈ keys b, key ∉ keys a := by
  induction entries generalizing seen as with
  | nil =>
    simp only [h.nil, Except.ok.injEq, List.forall₂_nil_left_iff]
    constructor
    · rintro rfl
      simp
    · exact fun hall => hall.1.symm
  | cons entry rest ih =>
    simp only [h.cons, ih, List.mem_append, not_or]
    constructor
    · rintro ⟨a, ha, hnew, bs, ⟨hbs, hnews, hapart⟩, rfl⟩
      refine ⟨.cons ha hbs, List.forall_mem_cons.mpr ⟨hnew, fun b hb key hkey => (hnews b hb key hkey).2⟩, ?_⟩
      exact List.pairwise_cons.mpr ⟨fun b hb key hkey => (hnews b hb key hkey).1, hapart⟩
    · rintro ⟨hread, hnew, hapart⟩
      cases hread with
      | @cons _ a _ bs ha hbs =>
        obtain ⟨hfirst, hapart⟩ := List.pairwise_cons.mp hapart
        obtain ⟨hnew, hnews⟩ := List.forall_mem_cons.mp hnew
        exact ⟨a, ha, hnew, bs, ⟨hbs, fun b hb key hkey => ⟨hfirst b hb key hkey, hnews b hb key hkey⟩, hapart⟩, rfl⟩

/-- What is read is read from an entry. -/
theorem exists_entry (h : ReadsDistinct go read keys) {as : List α} (hgo : go seen entries = .ok as) {a : α}
    (ha : a ∈ as) : ∃ entry ∈ entries, read entry = .ok a :=
  exists_of_forall₂ (h.eq_ok_iff.mp hgo).1.flip ha

/-- A reader of entries of a shape, each with one name, accepts exactly the entries of that shape whose names are
new and different. -/
theorem ok_iff {name : α → String} (h : ReadsDistinct go read fun a => [name a]) {shape : ε → String → Prop}
    (hread : ∀ entry n, (∃ a, read entry = .ok a ∧ name a = n) ↔ shape entry n) {names : List String} :
    (∃ as, go seen entries = .ok as ∧ as.map name = names) ↔
      List.Forall₂ shape entries names ∧ (∀ n ∈ names, n ∉ seen) ∧ names.Nodup := by
  have hshape : List.Forall₂ shape entries names ↔
      ∃ as, List.Forall₂ (fun entry a => read entry = .ok a) entries as ∧ as.map name = names := by
    induction entries generalizing names with
    | nil => simp [eq_comm]
    | cons entry rest ih =>
      simp only [List.forall₂_cons_left_iff, ih, ← hread]
      constructor
      · rintro ⟨_, _, ⟨a, ha, rfl⟩, ⟨bs, hbs, rfl⟩, rfl⟩
        exact ⟨a :: bs, ⟨a, bs, ha, hbs, rfl⟩, rfl⟩
      · rintro ⟨_, ⟨a, bs, ha, hbs, rfl⟩, rfl⟩
        exact ⟨name a, bs.map name, ⟨a, ha, rfl⟩, ⟨bs, hbs, rfl⟩, rfl⟩
  rw [hshape]
  simp only [h.eq_ok_iff, List.mem_singleton, forall_eq]
  constructor
  · rintro ⟨as, ⟨has, hnew, hapart⟩, rfl⟩
    exact ⟨⟨as, has, rfl⟩, List.forall_mem_map.mpr hnew, List.pairwise_map.mpr (hapart.imp Ne.symm)⟩
  · rintro ⟨⟨as, has, rfl⟩, hnew, hapart⟩
    exact ⟨as, ⟨has, fun a ha => hnew _ (List.mem_map_of_mem ha), (List.pairwise_map.mp hapart).imp Ne.symm⟩, rfl⟩

end ReadsDistinct

/-- The shape of a property entry with a name: name, type, one of the four cardinalities, and perhaps
something behind them. -/
def PropertyEntry (entry : Json) (name : String) : Prop :=
  ∃ type encoding rest,
    entry = .list (.text name :: .text type :: .text encoding :: rest) ∧ rest.length ≤ 1 ∧
      encoding ∈ Cardinality.encodings

/-- The shape of a constraint entry: property, kind and any value. -/
def ConstraintEntry (entry : Json) : Prop :=
  ∃ property kind value, entry = .list [.text property, .text kind, value]

/-- The shape of a decoding entry: property, rule, and perhaps a type or null. -/
def DecodingEntry (entry : Json) : Prop :=
  ∃ property rule, entry = .list [.text property, .text rule] ∨
    entry = .list [.text property, .text rule, .null] ∨
    ∃ type, entry = .list [.text property, .text rule, .text type]

/-- The shape of a member entry with a name: the name alone, or in a list with at most one value
behind it. -/
def MemberEntry (entry : Json) (name : String) : Prop :=
  entry = .text name ∨ entry = .list [.text name] ∨ ∃ doc, entry = .list [.text name, doc]

/-- A property is read exactly from an entry of its shape, unless its name is reserved. -/
theorem readProperty_ok_iff {owner : String} {docStrings : List (String × Json)} {entry : Json}
    {name : String} :
    (∃ p, readProperty owner docStrings entry = .ok p ∧ p.name = name) ↔
      PropertyEntry entry name ∧ name ≠ reservedProperty := by
  constructor
  · intro hall
    obtain ⟨p, h, rfl⟩ := hall
    rw [readProperty] at h
    simp only [bind_eq_ok, guard_eq_ok, tuple_eq_ok, textAt_eq_ok] at h
    obtain ⟨fields, ⟨rfl, hleast, hmost⟩, name, hname, hfree, type, htype, encoding, hencoding, h⟩ := h
    split at h
    next => exact absurd h fail_ne_ok
    next cardinality hparse =>
      obtain rfl := pure_eq_ok.mp h
      have hmem : encoding ∈ Cardinality.encodings :=
        Cardinality.parse?_isSome_iff.mp (Option.isSome_of_mem hparse)
      match fields, hleast with
      | first :: second :: third :: rest, _ =>
        simp only [List.getElem?_cons_zero, List.getElem?_cons_succ, Option.some.injEq] at hname htype hencoding
        subst hname htype hencoding
        simp only [List.length_cons] at hmost
        exact ⟨⟨type, encoding, rest, rfl, by omega, hmem⟩, hfree⟩
  · intro hall
    obtain ⟨⟨type, encoding, rest, rfl, hrest, hencoding⟩, hfree⟩ := hall
    obtain ⟨cardinality, hparse⟩ := Option.isSome_iff_exists.mp (Cardinality.parse?_isSome_iff.mpr hencoding)
    let fields := Json.text name :: Json.text type :: Json.text encoding :: rest
    have hlength : fields.length ≤ 4 := by
      simp only [fields, List.length_cons]
      omega
    refine ⟨⟨name, .parse type, cardinality, propertyDoc docStrings name fields⟩, ?_, rfl⟩
    rw [readProperty]
    simp only [bind_eq_ok, guard_eq_ok, tuple_eq_ok, textAt_eq_ok]
    refine ⟨fields, ⟨rfl, by simp [fields], hlength⟩, name, rfl, hfree, type, rfl, encoding, rfl, ?_⟩
    simp only [hparse]
    rfl

/-- Properties are read one after another, each with a new name. -/
theorem readsDistinct_readProperties (owner : String) (docStrings : List (String × Json)) :
    ReadsDistinct (readProperties owner docStrings) (readProperty owner docStrings) fun p => [p.name] where
  nil := fun _ => rfl
  cons := by
    intro seen entry rest ps
    simp only [readProperties, bind_eq_ok, guard_eq_ok, pure_eq_ok, List.mem_singleton, forall_eq,
      List.singleton_append]

/-- Properties are read exactly from entries of their shape with names that are free, new and
different. -/
theorem readProperties_ok_iff {owner : String} {docStrings : List (String × Json)} {seen : List String}
    {entries : List Json} {names : List String} :
    (∃ ps, readProperties owner docStrings seen entries = .ok ps ∧ ps.map (·.name) = names) ↔
      List.Forall₂ (fun entry name => PropertyEntry entry name ∧ name ≠ reservedProperty) entries names ∧
        (∀ name ∈ names, name ∉ seen) ∧ names.Nodup :=
  (readsDistinct_readProperties owner docStrings).ok_iff fun _ _ => readProperty_ok_iff

/-- An entry has a type as its second field. -/
def HasType (entry : Json) (raw : String) : Prop :=
  ∃ name rest, entry = .list (name :: .text raw :: rest)

/-- A property has the type that its entry gives. -/
theorem exists_type_of_readProperty {owner : String} {docStrings : List (String × Json)} {entry : Json}
    {p : PropertyDeclaration} (h : readProperty owner docStrings entry = .ok p) :
    ∃ raw, HasType entry raw ∧ p.type = .parse raw := by
  rw [readProperty] at h
  simp only [bind_eq_ok, guard_eq_ok, tuple_eq_ok, textAt_eq_ok] at h
  obtain ⟨fields, ⟨rfl, hleast, -⟩, name, -, -, raw, hraw, encoding, -, h⟩ := h
  split at h
  next => exact absurd h fail_ne_ok
  next =>
    obtain rfl := pure_eq_ok.mp h
    rcases fields with _ | ⟨first, _ | ⟨second, rest⟩⟩
    · cases hraw
    · cases hraw
    · simp only [List.getElem?_cons_zero, List.getElem?_cons_succ, Option.some.injEq] at hraw
      subst hraw
      exact ⟨raw, ⟨first, rest, rfl⟩, rfl⟩

/-- Entries without repetition are read when each of them is. -/
theorem readEach_ok_iff {α : Type} {read : Json → Declared α} {entries : List Json} :
    (∃ as, readEach read entries = .ok as) ↔ ∀ entry ∈ entries, ∃ a, read entry = .ok a := by
  induction entries with
  | nil => simp [readEach]
  | cons entry rest ih =>
    simp only [readEach, bind_eq_ok, pure_eq_ok, List.forall_mem_cons, ← ih]
    constructor
    · intro hall
      obtain ⟨_, a, ha, bs, hbs, _⟩ := hall
      exact ⟨⟨a, ha⟩, bs, hbs⟩
    · intro hall
      obtain ⟨⟨a, ha⟩, bs, hbs⟩ := hall
      exact ⟨a :: bs, a, ha, bs, hbs, rfl⟩

/-- A constraint is read exactly from an entry of its shape. -/
theorem readConstraint_ok_iff {owner : String} {entry : Json} :
    (∃ c, readConstraint owner entry = .ok c) ↔ ConstraintEntry entry := by
  simp only [readConstraint, bind_eq_ok, tuple_eq_ok, textAt_eq_ok, pure_eq_ok]
  constructor
  · intro hall
    obtain ⟨_, fields, ⟨rfl, hleast, hmost⟩, property, hproperty, kind, hkind, _⟩ := hall
    match fields, hleast, hmost with
    | [first, second, third], _, _ =>
      simp only [List.getElem?_cons_zero, List.getElem?_cons_succ, Option.some.injEq] at hproperty hkind
      subst hproperty hkind
      exact ⟨property, kind, third, rfl⟩
  · intro hall
    obtain ⟨property, kind, value, rfl⟩ := hall
    exact ⟨_, _, ⟨rfl, by simp, by simp⟩, property, rfl, kind, rfl, rfl⟩

/-- The text fields of a decoding come first, then perhaps its override type. -/
theorem readDecoding_fields {owner : String} {entry : Json} {d : Decoding}
    (h : readDecoding owner entry = .ok d) :
    ∃ property rule rest, entry = .list (.text property :: .text rule :: rest) ∧ rest.length ≤ 1 ∧
      ∀ value ∈ rest, value = .null ∨ ∃ type, value = .text type := by
  rw [readDecoding] at h
  simp only [bind_eq_ok, tuple_eq_ok] at h
  obtain ⟨fields, ⟨rfl, hleast, hmost⟩, h⟩ := h
  match fields, hleast, hmost with
  | [first, second], _, _ =>
    simp only [List.getElem?_cons_succ, List.getElem?_nil, bind_eq_ok, textAt_eq_ok,
      List.getElem?_cons_zero, Option.some.injEq] at h
    obtain ⟨_, _, property, rfl, rule, rfl, _⟩ := h
    exact ⟨property, rule, [], rfl, by simp, by simp⟩
  | [first, second, third], _, _ =>
    simp only [List.getElem?_cons_succ, List.getElem?_cons_zero] at h
    split at h
    next hthird => cases hthird
    next hthird =>
      simp only [bind_eq_ok, textAt_eq_ok, List.getElem?_cons_succ, List.getElem?_cons_zero,
        Option.some.injEq] at h hthird
      obtain ⟨_, _, property, rfl, rule, rfl, _⟩ := h
      exact ⟨property, rule, [third], rfl, by simp, by simp [hthird]⟩
    next =>
      simp only [bind_eq_ok, textAt_eq_ok, List.getElem?_cons_succ, List.getElem?_cons_zero,
        Option.some.injEq] at h
      obtain ⟨type, rfl, _, _, property, rfl, rule, rfl, _⟩ := h
      exact ⟨property, rule, [.text type], rfl, by simp, by simp⟩

/-- A decoding is read exactly from an entry of its shape. -/
theorem readDecoding_ok_iff {owner : String} {entry : Json} :
    (∃ d, readDecoding owner entry = .ok d) ↔ DecodingEntry entry := by
  constructor
  · intro hall
    obtain ⟨d, h⟩ := hall
    obtain ⟨property, rule, rest, rfl, hlength, hrest⟩ := readDecoding_fields h
    match rest, hlength with
    | [], _ => exact ⟨property, rule, Or.inl rfl⟩
    | [value], _ =>
      rcases hrest value List.mem_cons_self with rfl | ⟨type, rfl⟩
      · exact ⟨property, rule, Or.inr (Or.inl rfl)⟩
      · exact ⟨property, rule, Or.inr (Or.inr ⟨type, rfl⟩)⟩
  · intro hall
    rcases hall with ⟨property, rule, rfl | rfl | ⟨type, rfl⟩⟩
    · exact ⟨⟨property, rule, none⟩, rfl⟩
    · exact ⟨⟨property, rule, none⟩, rfl⟩
    · exact ⟨⟨property, rule, some (.parse type)⟩, rfl⟩

/-- A member is read exactly from an entry of its shape. -/
theorem readMember_ok_iff {owner : String} {entry : Json} {name : String} :
    (∃ m, readMember owner entry = .ok m ∧ m.name = name) ↔ MemberEntry entry name := by
  cases entry with
  | text given => simp [readMember, MemberEntry, eq_comm]
  | list items =>
    simp only [readMember, bind_eq_ok, tuple_eq_ok, textAt_eq_ok, pure_eq_ok]
    constructor
    · intro hall
      obtain ⟨_, ⟨fields, ⟨hfields, hleast, hmost⟩, given, hgiven, rfl⟩, rfl⟩ := hall
      obtain rfl := Json.list.inj hfields
      match items, hleast, hmost with
      | [first], _, _ =>
        obtain rfl := Option.some.inj hgiven
        exact Or.inr (Or.inl rfl)
      | [first, second], _, _ =>
        obtain rfl := Option.some.inj hgiven
        exact Or.inr (Or.inr ⟨second, rfl⟩)
    · intro hor
      rcases hor with h | h | ⟨doc, h⟩
      · cases h
      · obtain rfl := Json.list.inj h
        exact ⟨_, ⟨_, ⟨rfl, by simp, by simp⟩, name, rfl, rfl⟩, rfl⟩
      · obtain rfl := Json.list.inj h
        exact ⟨_, ⟨_, ⟨rfl, by simp, by simp⟩, name, rfl, rfl⟩, rfl⟩
  | null => simp [readMember, MemberEntry, fail]
  | boolean value => simp [readMember, MemberEntry, fail]
  | number value => simp [readMember, MemberEntry, fail]
  | object fields => simp [readMember, MemberEntry, fail]

/-- Members are read one after another, each with a new name. -/
theorem readsDistinct_readMembers (owner : String) :
    ReadsDistinct (readMembers owner) (readMember owner) fun m => [m.name] where
  nil := fun _ => rfl
  cons := by
    intro seen entry rest ms
    simp only [readMembers, bind_eq_ok, guard_eq_ok, pure_eq_ok, List.mem_singleton, forall_eq,
      List.singleton_append]

/-- Members are read exactly from entries of their shape with names that are new and different. -/
theorem readMembers_ok_iff {owner : String} {seen : List String} {entries : List Json}
    {names : List String} :
    (∃ ms, readMembers owner seen entries = .ok ms ∧ ms.map (·.name) = names) ↔
      List.Forall₂ MemberEntry entries names ∧ (∀ name ∈ names, name ∉ seen) ∧ names.Nodup :=
  (readsDistinct_readMembers owner).ok_iff fun _ _ => readMember_ok_iff

end Declaration

end OntologyCompiler
