import OntologyCompiler.Ontology.Codec
import OntologyCompiler.Proofs.Ordered

/-!
# Readers undo writers

A reader undoes a writer on a value if it reads that value from what the writer makes of it. Lists, optional values,
sets and maps carry this over from their parts. An optional value is null if it is absent, so what is there may not be
written as null. A set is the ascending list of its members and a map the ascending list of its entries, so neither
changes when it is put together from its own list. A record is read field by field, each under its name, in whatever
order they stand; a variant is read by its name.
-/

namespace OntologyCompiler

section Ascending

variable {κ β : Type} [Ord κ] [Std.TransOrd κ] [Std.LawfulEqOrd κ]

/-- A map is put together from its entries. -/
theorem OrderedMap.ofList_entries [DecidableEq κ] (m : OrderedMap κ β) : .ofList m.entries = m := by
  have hkeys : (m.entries.map Prod.fst).Nodup := by
    apply List.Pairwise.map (S := fun a b => a ≠ b) Prod.fst _ m.ascending
    rintro a b hlt heq
    exact compare_self_ne_lt b.1 (heq ▸ hlt)
  apply ext_get?
  intro k
  apply Option.ext
  intro v
  rw [get?_ofList hkeys, get?_eq_some_iff]

/-- A set is put together from its members. -/
theorem OrderedSet.ofList_toList (s : OrderedSet κ) : .ofList s.toList = s :=
  ext_mem fun _ => mem_ofList

end Ascending

namespace Json

variable {α : Type} {encode : α → Json} {decode : Json → Decoded α}

/-- A reader goes on with what was read. -/
@[simp] theorem ok_bind {β : Type} (a : α) (f : α → Decoded β) : (Except.ok a : Decoded α) >>= f = f a := rfl

/-- What was read is mapped. -/
@[simp] theorem map_ok {β : Type} (f : α → β) (a : α) : (Except.ok a : Decoded α).map f = .ok (f a) := rfl

/-- A reader that reads nothing has its value. -/
@[simp] theorem pure_eq_ok (a : α) : (pure a : Decoded α) = .ok a := rfl

/-- A text is read back. -/
@[simp] theorem asText_text (s : String) : asText (.text s) = .ok s := rfl

/-- A truth value is read back. -/
@[simp] theorem asBoolean_boolean (b : Bool) : asBoolean (.boolean b) = .ok b := rfl

/-- A natural number is written as an integer and read back. -/
@[simp] theorem asNat_int (n : Nat) : asNat (.int n) = .ok n := by simp [asNat, int]

/-- A text is a variant that carries nothing. -/
@[simp] theorem asVariant_text (name : String) : asVariant (.text name) = .ok (name, none) := rfl

/-- A variant is read as its name and what it carries. -/
@[simp] theorem asVariant_variant (name : String) (v : Json) : asVariant (variant name v) = .ok (name, some v) := rfl

/-- What a variant carries is decoded. -/
@[simp] theorem carrying_some (v : Json) : carrying decode (some v) = decode v := rfl

/-- A variant that carries nothing is accepted as such. -/
@[simp] theorem bare_none (a : α) : bare a none = .ok a := rfl

/-- An object is a record by names. -/
@[simp] theorem asRecord_object (names : List String) (fields : List (String × Json)) :
    asRecord names (.object fields) = .ok ⟨false, fields⟩ := rfl

namespace Record

variable {key name : String} {v : Json} {fields : List (String × Json)} {positional : Bool}

/-- A field that must be there is the first one of its name. -/
@[simp] theorem required_cons : required ⟨positional, (key, v) :: fields⟩ name decode =
    if key = name then decode v else required ⟨positional, fields⟩ name decode := by
  by_cases h : key = name <;> simp only [required, field?, if_pos, if_neg, h, not_false_eq_true]

/-- A field that may be null is the first one of its name. -/
@[simp] theorem optional_cons : optional ⟨positional, (key, v) :: fields⟩ name decode =
    if key = name then asOption decode v else optional ⟨positional, fields⟩ name decode := by
  by_cases h : key = name <;> simp only [optional, field?, if_pos, if_neg, h, not_false_eq_true]

/-- A field that may be missing is the first one of its name. -/
@[simp] theorem withDefault_cons (default : α) : withDefault ⟨positional, (key, v) :: fields⟩ name default decode =
    if key = name then decode v else withDefault ⟨positional, fields⟩ name default decode := by
  by_cases h : key = name <;> simp only [withDefault, field?, if_pos, if_neg, h, not_false_eq_true]

/-- A missing field has its default. -/
@[simp] theorem withDefault_nil (default : α) : withDefault ⟨positional, []⟩ name default decode = .ok default := rfl

end Record

/-- A list is read back if its items are. -/
theorem asList_ofList {l : List α} (h : ∀ a ∈ l, decode (encode a) = .ok a) :
    asList decode (Json.ofList encode l) = .ok l := by
  rw [Json.ofList, asList]
  induction l with
  | nil => rfl
  | cons a l ih =>
    obtain ⟨ha, hl⟩ := List.forall_mem_cons.mp h
    rw [List.map_cons, decodeItems, ha, ih hl]

/-- The values of a map are read back under their names. -/
theorem decodeFields_map {entries : List (String × α)} (h : ∀ e ∈ entries, decode (encode e.2) = .ok e.2) :
    decodeFields decode (entries.map fun e => (e.1, encode e.2)) = .ok entries := by
  induction entries with
  | nil => rfl
  | cons e entries ih =>
    obtain ⟨he, hentries⟩ := List.forall_mem_cons.mp h
    rw [List.map_cons, decodeFields, he, ih hentries]

/-- A map is read back if its values are. -/
theorem asMap_object {m : OrderedMap String α} (h : ∀ e ∈ m.entries, decode (encode e.2) = .ok e.2) :
    asMap decode (.object (m.entries.map fun e => (e.1, encode e.2))) = .ok m := by
  rw [asMap, decodeFields_map h, map_ok, OrderedMap.ofList_entries]

/-- An optional value is read back if it is when it is there, and is not written as null then. -/
theorem asOption_ofOption {x : Option α} (h : ∀ a ∈ x, decode (encode a) = .ok a ∧ encode a ≠ .null) :
    asOption decode (Json.ofOption encode x) = .ok x := by
  cases x with
  | none => rfl
  | some a =>
    obtain ⟨ha, hnull⟩ := h a rfl
    rw [Json.ofOption]
    unfold asOption
    split
    next heq => exact absurd heq hnull
    next => rw [ha, map_ok]

end Json

end OntologyCompiler
