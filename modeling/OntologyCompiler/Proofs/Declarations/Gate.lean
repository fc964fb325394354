import OntologyCompiler.Proofs.Declarations.Bodies

/-!
# Validation in front of a build

What a schema without problems promises to a build: every definition has the shape of its kind. Two
things that a build refuses are no problem to validation, since it looks at one definition at a time
and knows no reserved name: a property called `ext`, and a qualified name that comes twice (a class
and an enumeration of one package, or two packages of one name). A schema without problems can be
built exactly when neither occurs.
-/

namespace OntologyCompiler

open Declaration

namespace Validation

/-- A requirement raises no problem exactly when it holds. -/
theorem require_eq_nil {holds : Bool} {entity : String} {complaint : Complaint} :
    require holds entity complaint = [] ↔ holds = true := by
  cases holds <;> simp [require]

/-- A checked list field raises no problem exactly when it has items and they raise none. -/
theorem checkList_eq_nil {entity key : String} {body : List (String × Json)}
    {check : List Json → List Problem} :
    checkList entity body key check = [] ↔ ∃ items, items? body key = some items ∧ check items = [] := by
  unfold checkList optionalList items?
  split
  next items h =>
    split at h <;> simp_all
  next complaint h =>
    split at h <;> simp_all

/-- The parts of a property are found exactly in the lists of three or four fields. -/
theorem propertyParts?_eq_some_iff {entry name type cardinality : Json} {doc : Option Json} :
    propertyParts? entry = some (name, type, cardinality, doc) ↔
      entry = .list (name :: type :: cardinality :: doc.toList) := by
  constructor
  · intro h
    unfold propertyParts? at h
    split at h
    next => cases h; rfl
    next => cases h; rfl
    next => cases h
  · rintro rfl
    cases doc <;> rfl

/-- A property entry that raises no problem of its own. -/
def CleanProperty (entry : Json) (name : String) : Prop :=
  ∃ type encoding rest, entry = .list (.text name :: .text type :: .text encoding :: rest) ∧
    Grammar.isPropertyName name = true ∧ typeProblem? type = none ∧ encoding ∈ Cardinality.encodings ∧
      (rest = [] ∨ rest = [.null] ∨ ∃ doc, rest = [.text doc])

/-- An entry without problems of its own has the shape of a property. -/
theorem CleanProperty.propertyEntry {entry : Json} {name : String} (h : CleanProperty entry name) :
    PropertyEntry entry name := by
  obtain ⟨type, encoding, rest, rfl, -, -, hencoding, hrest⟩ := h
  refine ⟨type, encoding, rest, rfl, ?_, hencoding⟩
  obtain rfl | rfl | ⟨doc, rfl⟩ := hrest <;> simp

section Entries

variable {entity owner : String} {seen : List String}

/-- What stands behind the name of a property raises no problem if it is a type, a cardinality and perhaps a doc. -/
theorem checkPropertyRest_eq_nil_iff {type cardinality : Json} {doc : Option Json} :
    checkPropertyRest entity type cardinality doc = [] ↔
      (∃ t, type = .text t ∧ typeProblem? t = none) ∧ (∃ c, cardinality = .text c ∧ c ∈ Cardinality.encodings) ∧
        (doc = none ∨ doc = some .null ∨ ∃ text, doc = some (.text text)) := by
  unfold checkPropertyRest
  rw [List.append_eq_nil_iff, List.append_eq_nil_iff, and_assoc]
  refine and_congr ?_ (and_congr ?_ ?_)
  · split
    · split <;> simp_all
    · simp_all
  · split <;> simp_all [require_eq_nil]
  · split <;> simp_all

/-- A property with a name raises no problem if the name is proper and new, and neither does the rest. -/
theorem checkNamedProperty_eq_nil_iff {name : String} {type cardinality : Json} {doc : Option Json} :
    checkNamedProperty owner seen name type cardinality doc = [] ↔
      (Grammar.isPropertyName name = true ∧ name ∉ seen) ∧
        checkPropertyRest (owner ++ "." ++ name) type cardinality doc = [] := by
  rw [checkNamedProperty, List.append_eq_nil_iff, List.append_eq_nil_iff, require_eq_nil, require_eq_nil]
  simp

/-- An entry with the parts of a property has no problem of its own if they raise none. -/
theorem cleanProperty_iff (entity : String) {name : String} {type cardinality : Json} {doc : Option Json} :
    CleanProperty (.list (.text name :: type :: cardinality :: doc.toList)) name ↔
      Grammar.isPropertyName name = true ∧ checkPropertyRest entity type cardinality doc = [] := by
  rw [checkPropertyRest_eq_nil_iff]
  constructor
  · rintro ⟨t, c, rest, heq, hname, htype, hcardinality, hrest⟩
    simp only [Json.list.injEq, List.cons.injEq, true_and] at heq
    obtain ⟨rfl, rfl, rfl⟩ := heq
    refine ⟨hname, ⟨t, rfl, htype⟩, ⟨c, rfl, hcardinality⟩, ?_⟩
    cases doc <;> simp_all
  · rintro ⟨hname, ⟨t, rfl, htype⟩, ⟨c, rfl, hcardinality⟩, hdoc⟩
    refine ⟨t, c, doc.toList, rfl, hname, htype, hcardinality, ?_⟩
    obtain rfl | rfl | ⟨text, rfl⟩ := hdoc <;> simp

/-- A property raises no problem exactly if it has none of its own and its name is new. -/
theorem checkProperty_eq_nil_iff {entry : Json} :
    checkProperty owner seen entry = [] ↔ ∃ name, CleanProperty entry name ∧ name ∉ seen := by
  have hparts {name : String} (h : CleanProperty entry name) : ∃ type cardinality doc,
      propertyParts? entry = some (.text name, type, cardinality, doc) := by
    obtain ⟨type, encoding, rest, rfl, -, -, -, hrest⟩ := h
    obtain rfl | rfl | ⟨doc, rfl⟩ := hrest <;> exact ⟨_, _, _, rfl⟩
  unfold checkProperty
  split
  next hnone =>
    simp only [reduceCtorEq, false_iff]
    rintro ⟨name, hclean, -⟩
    obtain ⟨_, _, _, hsome⟩ := hparts hclean
    rw [hnone] at hsome
    cases hsome
  next name type cardinality doc hsome =>
    obtain rfl := propertyParts?_eq_some_iff.mp hsome
    rw [checkNamedProperty_eq_nil_iff]
    constructor
    · rintro ⟨⟨hname, hnew⟩, hrest⟩
      exact ⟨name, (cleanProperty_iff _).mpr ⟨hname, hrest⟩, hnew⟩
    · rintro ⟨name', hclean, hnew⟩
      obtain ⟨_, _, _, hsome'⟩ := hparts hclean
      rw [hsome] at hsome'
      cases hsome'
      obtain ⟨hname, hrest⟩ := (cleanProperty_iff _).mp hclean
      exact ⟨⟨hname, hnew⟩, hrest⟩
  next name type cardinality doc hother hsome =>
    simp only [reduceCtorEq, false_iff]
    rintro ⟨name', hclean, -⟩
    obtain ⟨_, _, _, hsome'⟩ := hparts hclean
    rw [hsome] at hsome'
    cases hsome'
    exact hother _ rfl

/-- The test for constraints accepts exactly the entries of their shape. -/
theorem isConstraint_iff {entry : Json} : isConstraint entry = true ↔ ConstraintEntry entry := by
  constructor
  · intro h
    unfold isConstraint at h
    split at h
    next property kind value => exact ⟨property, kind, value, rfl⟩
    next => cases h
  · rintro ⟨property, kind, value, rfl⟩
    rfl

/-- The test for decodings accepts exactly the entries of their shape. -/
theorem isDecoding_iff {entry : Json} : isDecoding entry = true ↔ DecodingEntry entry := by
  constructor
  · intro h
    unfold isDecoding at h
    split at h
    next property rule => exact ⟨property, rule, Or.inl rfl⟩
    next property rule type => exact ⟨property, rule, Or.inr (Or.inr ⟨type, rfl⟩)⟩
    next property rule => exact ⟨property, rule, Or.inr (Or.inl rfl)⟩
    next => cases h
  · rintro ⟨property, rule, rfl | rfl | ⟨type, rfl⟩⟩ <;> rfl

/-- The name of a member is found exactly in the entries of their shape. -/
theorem memberName?_eq_some_iff {entry : Json} {name : String} :
    memberName? entry = some name ↔ MemberEntry entry name := by
  constructor
  · intro h
    unfold memberName? at h
    split at h
    next => exact Or.inl (congrArg Json.text (Option.some.inj h))
    next => exact Or.inr (Or.inl (congrArg (fun s => Json.list [.text s]) (Option.some.inj h)))
    next given doc => exact Or.inr (Or.inr ⟨doc, congrArg (fun s => Json.list [.text s, doc]) (Option.some.inj h)⟩)
    next => cases h
  · rintro (rfl | rfl | ⟨doc, rfl⟩) <;> rfl

/-- Entries are checked one after another; one without problems has a name that was not seen before. -/
structure ChecksDistinct (check : List String → List Json → List Problem) (shape : Json → String → Prop) : Prop where
  nil : ∀ seen, check seen [] = []
  cons : ∀ seen entry rest, check seen (entry :: rest) = [] ↔
    ∃ name, shape entry name ∧ name ∉ seen ∧ check (name :: seen) rest = []

/-- Entries have no problems exactly if they are of the shape and have names that are new and different. -/
theorem ChecksDistinct.eq_nil_iff {check : List String → List Json → List Problem} {shape : Json → String → Prop}
    (h : ChecksDistinct check shape) {entries : List Json} : check seen entries = [] ↔
      ∃ names, List.Forall₂ shape entries names ∧ (∀ name ∈ names, name ∉ seen) ∧ names.Nodup := by
  induction entries generalizing seen with
  | nil =>
    simp only [h.nil, List.forall₂_nil_left_iff, true_iff]
    exact ⟨[], rfl, nofun, .nil⟩
  | cons entry rest ih =>
    simp only [h.cons, ih, List.mem_cons, not_or]
    constructor
    · rintro ⟨name, hname, hnew, names, hnames, hall, hnodup⟩
      refine ⟨name :: names, .cons hname hnames, List.forall_mem_cons.mpr ⟨hnew, fun n hn => (hall n hn).2⟩, ?_⟩
      exact List.nodup_cons.mpr ⟨fun hmem => (hall name hmem).1 rfl, hnodup⟩
    · rintro ⟨_, hshapes, hall, hnodup⟩
      obtain ⟨name, names, hname, hnames, rfl⟩ := List.forall₂_cons_left_iff.mp hshapes
      obtain ⟨hnew, hall⟩ := List.forall_mem_cons.mp hall
      obtain ⟨hfresh, hnodup⟩ := List.nodup_cons.mp hnodup
      refine ⟨name, hname, hnew, names, hnames, fun n hn => ⟨?_, hall n hn⟩, hnodup⟩
      rintro rfl
      exact hfresh hn

/-- The properties of a class are checked against each other. -/
theorem checksDistinct_checkProperties : ChecksDistinct (checkProperties owner) CleanProperty where
  nil _ := rfl
  cons seen entry rest := by
    rw [checkProperties, List.append_eq_nil_iff, checkProperty_eq_nil_iff]
    constructor
    · rintro ⟨⟨name, hclean, hnew⟩, hrest⟩
      rw [propertyName?_of_propertyEntry hclean.propertyEntry] at hrest
      exact ⟨name, hclean, hnew, hrest⟩
    · rintro ⟨name, hclean, hnew, hrest⟩
      rw [propertyName?_of_propertyEntry hclean.propertyEntry]
      exact ⟨⟨name, hclean, hnew⟩, hrest⟩

/-- The members of an enumeration are checked against each other. -/
theorem checksDistinct_checkMembers : ChecksDistinct (checkMembers entity) MemberEntry where
  nil _ := rfl
  cons seen entry rest := by
    simp only [checkMembers, ← memberName?_eq_some_iff]
    cases memberName? entry <;> simp [require_eq_nil]

end Entries

/-- A class body without problems has the shape of one. -/
theorem classBody_of_checkClass {entity : String} {body : List (String × Json)}
    (h : checkClass entity body = []) : ∃ names, ClassBody body names := by
  simp only [checkClass, List.append_eq_nil_iff, checkList_eq_nil, List.flatMap_eq_nil_iff,
    require_eq_nil] at h
  obtain ⟨⟨⟨⟨-, entries, hentries, hproperties⟩, constraints, hconstraints, hshape⟩, decodings, hdecodings,
    hshape'⟩, -⟩ := h
  obtain ⟨names, hnames, -, hnodup⟩ := checksDistinct_checkProperties.eq_nil_iff.mp hproperties
  exact ⟨names, ⟨entries, hentries, hnames.imp fun _ _ => CleanProperty.propertyEntry⟩, hnodup,
    ⟨constraints, hconstraints, fun entry hentry => isConstraint_iff.mp (hshape entry hentry)⟩,
    ⟨decodings, hdecodings, fun entry hentry => isDecoding_iff.mp (hshape' entry hentry)⟩⟩

/-- An enumeration body without problems has the shape of one. -/
theorem enumBody_of_checkEnum {entity : String} {body : List (String × Json)}
    (h : checkEnum entity body = []) : ∃ names, EnumBody body names := by
  simp only [checkEnum, List.append_eq_nil_iff] at h
  obtain ⟨-, h⟩ := h
  split at h
  next => cases h
  next members hmembers =>
    obtain ⟨names, hnames, -, hnodup⟩ := checksDistinct_checkMembers.eq_nil_iff.mp h
    exact ⟨names, ⟨members, by simp [items?, hmembers], hnames⟩, hnodup⟩
  next => cases h

/-- A definition without problems has the shape of its kind. -/
theorem wellShaped_of_checkDefinition {package : String} {d : Definition}
    (h : checkDefinition package d = []) : d.WellShaped := by
  simp only [checkDefinition, List.append_eq_nil_iff] at h
  obtain ⟨-, h⟩ := h
  unfold Definition.WellShaped
  split at h
  next body hbody =>
    refine ⟨body, hbody, ?_⟩
    obtain ⟨-, h⟩ := List.append_eq_nil_iff.mp h
    cases hkind : d.kind with
    | ofClass =>
      simp only [hkind] at h
      exact classBody_of_checkClass h
    | ofEnum =>
      simp only [hkind] at h
      exact enumBody_of_checkEnum h
  next => cases h

end Validation

namespace Schema

/-- The definitions of a schema without problems have the shapes of their kinds. -/
theorem wellShaped_of_problems_eq_nil {s : Schema} (h : s.problems = []) :
    ∀ p ∈ s.packages, ∀ d ∈ p.definitions, d.WellShaped := by
  intro p hp d hd
  simp only [problems, List.append_eq_nil_iff, List.flatMap_eq_nil_iff] at h
  have hpackage := h.2 p hp
  simp only [Validation.checkPackage, List.append_eq_nil_iff, List.flatMap_eq_nil_iff] at hpackage
  exact Validation.wellShaped_of_checkDefinition (hpackage.2 d hd)

/-- A schema without problems can be built exactly when no property takes the reserved name and the
qualified names of its types differ. -/
theorem exists_build_iff_of_problems_eq_nil {s : Schema} (h : s.problems = []) :
    (∃ o, s.build = .ok o) ↔
      (∀ p ∈ s.packages, ∀ d ∈ p.definitions, reservedProperty ∉ d.propertyNames) ∧
        (s.packages.flatMap qualifiedNames).Nodup := by
  rw [exists_build_iff]
  apply and_congr_left
  intro _
  constructor
  · exact fun hread p hp d hd => (hread p hp d hd).2
  · exact fun hfree p hp d hd => ⟨wellShaped_of_problems_eq_nil h p hp d hd, hfree p hp d hd⟩

/-- A schema with one class, which has one property, and one enumeration. -/
def orchard (property enumeration : String) : Schema :=
  let tree := .object [("base", .null), ("is_abstract", .boolean false),
    ("properties", .list [.list [.text property, .text "str", .text "0.1"]])]
  let kinds := .object [("is_open", .boolean false), ("members", .list [.text "apple", .text "pear"])]
  ⟨"orchard", "1", "",
    [⟨"orchard", some "Trees.", some (.ofList [("tree", tree)]), some (.ofList [(enumeration, kinds)])⟩]⟩

/-- The reserved property and a name that a class shares with an enumeration raise no problem, but stop
the build; with other names the same schema is built. -/
theorem orchard_problems_and_build :
    ((orchard "ext" "kind").problems = [] ∧ ¬∃ o, (orchard "ext" "kind").build = .ok o) ∧
      ((orchard "height" "tree").problems = [] ∧ ¬∃ o, (orchard "height" "tree").build = .ok o) ∧
        (orchard "height" "kind").problems = [] ∧ ∃ o, (orchard "height" "kind").build = .ok o := by
  have hext : (orchard "ext" "kind").problems = [] := by decide +kernel
  have htree : (orchard "height" "tree").problems = [] := by decide +kernel
  have hkind : (orchard "height" "kind").problems = [] := by decide +kernel
  refine ⟨⟨hext, ?_⟩, ⟨htree, ?_⟩, hkind, ?_⟩
  · rw [exists_build_iff_of_problems_eq_nil hext]
    decide +kernel
  · rw [exists_build_iff_of_problems_eq_nil htree]
    decide +kernel
  · rw [exists_build_iff_of_problems_eq_nil hkind]
    decide +kernel

end Schema

end OntologyCompiler
