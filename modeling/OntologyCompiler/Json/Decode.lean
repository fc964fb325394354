import OntologyCompiler.Json.Basic

/-!
# Reading values into types

Readers from JSON values. A record is an object, or a list of its leading fields in order; fields that
it does not name are ignored. A variant is its bare name or an object with the name as its only field.
-/

namespace OntologyCompiler.Json

/-- The outcome of reading a value. -/
abbrev Decoded (α : Type) := Except ReadFailure α

/-- Reads a text. -/
def asText : Json → Decoded String
  | .text s => .ok s
  | _ => .error .mistyped

/-- Reads a truth value. -/
def asBoolean : Json → Decoded Bool
  | .boolean b => .ok b
  | _ => .error .mistyped

/-- Reads a natural number. -/
def asNat : Json → Decoded Nat
  | .number (.integer n) => if 0 ≤ n then .ok n.toNat else .error .mistyped
  | _ => .error .mistyped

/-- Reads every item of a list. -/
def decodeItems {α : Type} (decode : Json → Decoded α) : List Json → Decoded (List α)
  | [] => .ok []
  | item :: rest =>
    match decode item with
    | .error fault => .error fault
    | .ok a =>
      match decodeItems decode rest with
      | .error fault => .error fault
      | .ok as => .ok (a :: as)

/-- Reads a list. -/
def asList {α : Type} (decode : Json → Decoded α) : Json → Decoded (List α)
  | .list items => decodeItems decode items
  | _ => .error .mistyped

/-- Reads a value or null. -/
def asOption {α : Type} (decode : Json → Decoded α) : Json → Decoded (Option α)
  | .null => .ok none
  | v => (decode v).map some

/-- Reads the value of every field. -/
def decodeFields {α : Type} (decode : Json → Decoded α) :
    List (String × Json) → Decoded (List (String × α))
  | [] => .ok []
  | (name, v) :: rest =>
    match decode v with
    | .error fault => .error fault
    | .ok a =>
      match decodeFields decode rest with
      | .error fault => .error fault
      | .ok as => .ok ((name, a) :: as)

/-- Reads an object as a map from the names of its fields. -/
def asMap {α : Type} (decode : Json → Decoded α) : Json → Decoded (OrderedMap String α)
  | .object fields => (decodeFields decode fields).map OrderedMap.ofList
  | _ => .error .mistyped

/-- The named fields of a record, and whether it stood as a list. -/
structure Record where
  positional : Bool
  fields : List (String × Json)

/-- Reads a record with the given field names. -/
def asRecord (names : List String) : Json → Decoded Record
  | .object fields => .ok ⟨false, fields⟩
  | .list items =>
    if names.length < items.length then .error .mistyped else .ok ⟨true, names.zip items⟩
  | _ => .error .mistyped

namespace Record

variable {α : Type}

/-- A field that must be there. -/
def required (r : Record) (name : String) (decode : Json → Decoded α) : Decoded α :=
  match field? name r.fields with
  | some v => decode v
  | none => .error .mistyped

/-- A field that may be null, and may be missing from an object. -/
def optional (r : Record) (name : String) (decode : Json → Decoded α) : Decoded (Option α) :=
  match field? name r.fields with
  | some v => asOption decode v
  | none => if r.positional then .error .mistyped else .ok none

/-- A field with a value to take if it is missing. -/
def withDefault (r : Record) (name : String) (default : α) (decode : Json → Decoded α) : Decoded α :=
  match field? name r.fields with
  | some v => decode v
  | none => .ok default

end Record

/-- Reads the name of a variant and what it carries. -/
def asVariant : Json → Decoded (String × Option Json)
  | .text name => .ok (name, none)
  | .object [(name, v)] => .ok (name, some v)
  | _ => .error .mistyped

/-- Accepts a variant that carries nothing. -/
def bare {α : Type} (a : α) : Option Json → Decoded α
  | none => .ok a
  | some .null => .ok a
  | some _ => .error .mistyped

/-- Reads what a variant carries. -/
def carrying {α : Type} (decode : Json → Decoded α) : Option Json → Decoded α
  | some v => decode v
  | none => .error .mistyped

end OntologyCompiler.Json
