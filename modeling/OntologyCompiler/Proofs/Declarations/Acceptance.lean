import OntologyCompiler.Proofs.Declarations.Grammar

/-!
# What validation accepts

The grammar of a schema, told part by part: which texts its names, references and types are, which fields the body of a
definition has, and which entries its lists hold. Validation raises problems where it finds a part that breaks a rule,
and looks no further into an entry that has no name. Still a schema has no problems exactly if it follows the whole
grammar: an entry without a name is a problem of its own, so where there is no problem every entry has been looked at.
-/

namespace OntologyCompiler

open Declaration

namespace Grammar

/-- A text that says something. -/
def IsFilled (s : String) : Prop := ∃ c ∈ s.toList, Text.isBlank c = false

/-- A property entry with a name: name, type, cardinality, and perhaps a doc or null. -/
def IsProperty (entry : Json) (name : String) : Prop :=
  ∃ type encoding rest, entry = .list (.text name :: .text type :: .text encoding :: rest) ∧
    name.toList ∈ propertyNames ∧ IsType type ∧ encoding ∈ Cardinality.encodings ∧
      (rest = [] ∨ rest = [.null] ∨ ∃ doc, rest = [.text doc])

/-- The fields of a class. -/
structure IsClass (body : List (String × Json)) : Prop where
  base : Json.field? "base" body = some .null ∨
    ∃ base, Json.field? "base" body = some (.text base) ∧ base.toList ∈ references
  isAbstract : ∃ flag, Json.field? "is_abstract" body = some (.boolean flag)
  properties : ∃ entries names, items? body "properties" = some entries ∧ List.Forall₂ IsProperty entries names ∧
    names.Nodup
  constraints : ∃ entries, items? body "constraints" = some entries ∧ ∀ entry ∈ entries, ConstraintEntry entry
  decodings : ∃ entries, items? body "decodings" = some entries ∧ ∀ entry ∈ entries, DecodingEntry entry
  docStrings : Json.field? "doc_strings" body = none ∨ Json.field? "doc_strings" body = some .null ∨
    ∃ fields, Json.field? "doc_strings" body = some (.object fields)

/-- The fields of an enumeration. -/
structure IsEnum (body : List (String × Json)) : Prop where
  isOpen : ∃ flag, Json.field? "is_open" body = some (.boolean flag)
  members : ∃ entries names, Json.field? "members" body = some (.list entries) ∧
    List.Forall₂ MemberEntry entries names ∧ names.Nodup

end Grammar

/-- A definition follows the grammar of its kind, and does not declare another kind. -/
structure Definition.Valid (d : Definition) : Prop where
  name : d.name.toList ∈ Grammar.names
  body : ∃ body, d.body = .object body ∧
    (∀ declared, Json.field? "type" body = some declared → declared = .text d.kind.text) ∧
      match d.kind with
      | .ofClass => Grammar.IsClass body
      | .ofEnum => Grammar.IsEnum body

/-- A package has a name, a doc and a map of types, and its definitions follow the grammar. -/
structure Schema.Package.Valid (p : Schema.Package) : Prop where
  name : p.name.toList ∈ Grammar.names
  doc : ∃ doc, p.doc = some doc ∧ Grammar.IsFilled doc
  types : p.classes.isSome = true ∨ p.enums.isSome = true
  definitions : ∀ d ∈ p.definitions, d.Valid

/-- A schema has a name, a version and a package, and its packages follow the grammar. -/
structure Schema.Valid (s : Schema) : Prop where
  name : s.name.toList ∈ Grammar.names
  version : Grammar.IsFilled s.version
  nonempty : s.packages ≠ []
  packages : ∀ p ∈ s.packages, p.Valid

namespace Validation

/-- A text that is not blank says something. -/
theorem not_isBlankText_iff {s : String} : (!Text.isBlankText s) = true ↔ Grammar.IsFilled s := by
  simp [Text.isBlankText, Grammar.IsFilled]

/-- Names are recognised. -/
theorem isName_iff {s : String} : Grammar.isName s = true ↔ s.toList ∈ Grammar.names :=
  Grammar.mem_names_iff.symm

section Bodies

variable {entity key : String} {body : List (String × Json)}

/-- The base of a class has no problem if it is null or a reference. -/
theorem checkBase_eq_nil_iff : checkBase entity body = [] ↔ Json.field? "base" body = some .null ∨
    ∃ base, Json.field? "base" body = some (.text base) ∧ base.toList ∈ Grammar.references := by
  unfold checkBase
  split <;> simp_all [require_eq_nil, Grammar.isQualifiedName, Grammar.mem_references_iff]

/-- A flag has no problem if it is a boolean. -/
theorem checkFlag_eq_nil_iff {missing wrong : Complaint} :
    checkFlag entity body key missing wrong = [] ↔ ∃ flag, Json.field? key body = some (.boolean flag) := by
  unfold checkFlag
  split <;> simp_all

/-- Doc strings have no problem if they are absent, null or an object. -/
theorem checkDocStrings_eq_nil_iff : checkDocStrings entity body = [] ↔
    Json.field? "doc_strings" body = none ∨ Json.field? "doc_strings" body = some .null ∨
      ∃ fields, Json.field? "doc_strings" body = some (.object fields) := by
  unfold checkDocStrings
  split <;> simp_all

/-- The kind of a definition has no problem if no other one is declared. -/
theorem checkKind_eq_nil_iff {kind : TypeKind} : checkKind entity body kind = [] ↔
    ∀ declared, Json.field? "type" body = some declared → declared = .text kind.text := by
  unfold checkKind
  split <;> simp_all [require_eq_nil]

/-- The properties that follow the grammar are those without problems of their own. -/
theorem isProperty_eq : Grammar.IsProperty = CleanProperty := by
  funext entry name
  simp only [Grammar.IsProperty, CleanProperty, Grammar.mem_propertyNames_iff, typeProblem?_eq_none_iff]

/-- The body of a class has no problem exactly if it has the fields of a class. -/
theorem checkClass_eq_nil_iff : checkClass entity body = [] ↔ Grammar.IsClass body := by
  simp only [checkClass, List.append_eq_nil_iff, and_assoc, checkBase_eq_nil_iff, checkFlag_eq_nil_iff,
    checkList_eq_nil, checkDocStrings_eq_nil_iff, List.flatMap_eq_nil_iff, require_eq_nil, isConstraint_iff,
    isDecoding_iff, checksDistinct_checkProperties.eq_nil_iff, ← isProperty_eq]
  constructor
  · rintro ⟨hbase, habstract, ⟨entries, hitems, names, hshapes, -, hnodup⟩, hconstraints, hdecodings, hdocs⟩
    exact ⟨hbase, habstract, ⟨entries, names, hitems, hshapes, hnodup⟩, hconstraints, hdecodings, hdocs⟩
  · rintro ⟨hbase, habstract, ⟨entries, names, hitems, hshapes, hnodup⟩, hconstraints, hdecodings, hdocs⟩
    exact ⟨hbase, habstract, ⟨entries, hitems, names, hshapes, fun _ _ => List.not_mem_nil, hnodup⟩, hconstraints,
      hdecodings, hdocs⟩

/-- The body of an enumeration has no problem exactly if it has the fields of an enumeration. -/
theorem checkEnum_eq_nil_iff : checkEnum entity body = [] ↔ Grammar.IsEnum body := by
  rw [checkEnum, List.append_eq_nil_iff, checkFlag_eq_nil_iff]
  constructor
  · rintro ⟨hopen, hmembers⟩
    split at hmembers
    next => cases hmembers
    next entries hfield =>
      obtain ⟨names, hshapes, -, hnodup⟩ := checksDistinct_checkMembers.eq_nil_iff.mp hmembers
      exact ⟨hopen, entries, names, hfield, hshapes, hnodup⟩
    next => cases hmembers
  · rintro ⟨hopen, entries, names, hfield, hshapes, hnodup⟩
    rw [hfield]
    exact ⟨hopen, checksDistinct_checkMembers.eq_nil_iff.mpr ⟨names, hshapes, fun _ _ => List.not_mem_nil, hnodup⟩⟩

end Bodies

/-- A definition has no problem exactly if it follows the grammar. -/
theorem checkDefinition_eq_nil_iff {packageName : String} {d : Definition} :
    checkDefinition packageName d = [] ↔ d.Valid := by
  rw [checkDefinition, List.append_eq_nil_iff, require_eq_nil, isName_iff]
  constructor
  · rintro ⟨hname, hbody⟩
    split at hbody
    next body heq =>
      obtain ⟨hkind, hfields⟩ := List.append_eq_nil_iff.mp hbody
      refine ⟨hname, body, heq, checkKind_eq_nil_iff.mp hkind, ?_⟩
      cases hd : d.kind with
      | ofClass =>
        rw [hd] at hfields
        exact checkClass_eq_nil_iff.mp hfields
      | ofEnum =>
        rw [hd] at hfields
        exact checkEnum_eq_nil_iff.mp hfields
    next => cases hbody
  · rintro ⟨hname, body, heq, hkind, hfields⟩
    rw [heq]
    refine ⟨hname, List.append_eq_nil_iff.mpr ⟨checkKind_eq_nil_iff.mpr hkind, ?_⟩⟩
    cases hd : d.kind with
    | ofClass =>
      rw [hd] at hfields
      exact checkClass_eq_nil_iff.mpr hfields
    | ofEnum =>
      rw [hd] at hfields
      exact checkEnum_eq_nil_iff.mpr hfields

/-- A doc that may be missing is not blank exactly if there is one that says something. -/
theorem not_isBlankText_getD_iff {doc : Option String} :
    (!Text.isBlankText (doc.getD "")) = true ↔ ∃ text, doc = some text ∧ Grammar.IsFilled text := by
  cases doc with
  | none => simp [Text.isBlankText]
  | some text => simp [← not_isBlankText_iff]

/-- A package has no problem exactly if it follows the grammar. -/
theorem checkPackage_eq_nil_iff {p : Schema.Package} : checkPackage p = [] ↔ p.Valid := by
  simp only [checkPackage, List.append_eq_nil_iff, require_eq_nil, isName_iff, not_isBlankText_getD_iff,
    Bool.or_eq_true, List.flatMap_eq_nil_iff, checkDefinition_eq_nil_iff, and_assoc]
  constructor
  · rintro ⟨hname, hdoc, htypes, hall⟩
    exact ⟨hname, hdoc, htypes, hall⟩
  · rintro ⟨hname, hdoc, htypes, hall⟩
    exact ⟨hname, hdoc, htypes, hall⟩

/-- There is no problem with the head of a schema exactly if it has a name, a version and a package. -/
theorem checkHead_eq_nil_iff {s : Schema} : checkHead s = [] ↔
    s.name.toList ∈ Grammar.names ∧ Grammar.IsFilled s.version ∧ s.packages ≠ [] := by
  have hempty : Grammar.isName "" = false := by decide
  rw [← isName_iff, checkHead, List.append_eq_nil_iff, List.append_eq_nil_iff, and_assoc, require_eq_nil,
    require_eq_nil, not_isBlankText_iff]
  refine and_congr ?_ (and_congr Iff.rfl (by simp))
  split
  next hname => simp [hname, hempty]
  next => rw [require_eq_nil]

end Validation

/-- A schema has no problems exactly if it follows the grammar. -/
theorem Schema.problems_eq_nil_iff_valid (s : Schema) : s.problems = [] ↔ s.Valid := by
  simp only [Schema.problems, List.append_eq_nil_iff, Validation.checkHead_eq_nil_iff, List.flatMap_eq_nil_iff,
    Validation.checkPackage_eq_nil_iff, and_assoc]
  constructor
  · rintro ⟨hname, hversion, hnonempty, hall⟩
    exact ⟨hname, hversion, hnonempty, hall⟩
  · rintro ⟨hname, hversion, hnonempty, hall⟩
    exact ⟨hname, hversion, hnonempty, hall⟩

end OntologyCompiler
