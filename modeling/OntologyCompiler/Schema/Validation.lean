import OntologyCompiler.Schema.Grammar
import OntologyCompiler.Schema.Problem

/-!
# Validation

The check in front of a build: every rule looks at one definition alone, so whether a reference leads
anywhere is not asked. Problems come in schema order.
-/

namespace OntologyCompiler.Validation

/-- A problem if the condition fails. -/
def require (holds : Bool) (entity : String) (complaint : Complaint) : List Problem :=
  if holds then [] else [⟨entity, complaint⟩]

/-- What is wrong with a type text, if anything. -/
def typeProblem? (type : String) : Option TypeProblem :=
  if (Text.dropStart? ValueType.linkedStart.toList type.toList).isSome then
    if Grammar.isLinkedType type then none else some (.badLinked type)
  else if Grammar.isQualifiedName type then none
  else if Grammar.isBareWord type then
    if (ScalarKind.ofKeyword? type).isSome then none else some (.unknownScalar type)
  else some (.noReference type)

/-- The items of a list that may be absent or null, or the problem that it is no list. -/
def optionalList (body : List (String × Json)) (key : String) : Except Complaint (List Json) :=
  match Json.field? key body with
  | none => .ok []
  | some .null => .ok []
  | some (.list items) => .ok items
  | some _ => .error (.notList key)

/-- Checks the entries of a list that may be absent or null. -/
def checkList (entity : String) (body : List (String × Json)) (key : String)
    (check : List Json → List Problem) : List Problem :=
  match optionalList body key with
  | .ok items => check items
  | .error complaint => [⟨entity, complaint⟩]

/-- Checks type, cardinality and doc of a property. -/
def checkPropertyRest (entity : String) (type cardinality : Json) (doc : Option Json) : List Problem :=
  (match type with
    | .text t =>
      match typeProblem? t with
      | some problem => [⟨entity, .typeProblem problem⟩]
      | none => []
    | other => [⟨entity, .typeKindForm other⟩]) ++
  (match cardinality with
    | .text c => require (Cardinality.encodings.contains c) entity (.cardinalityForm cardinality)
    | other => [⟨entity, .cardinalityForm other⟩]) ++
  (match doc with
    | none => []
    | some (.text _) => []
    | some .null => []
    | some other => [⟨entity, .docForm other⟩])

/-- Checks a property that has a name. -/
def checkNamedProperty (owner : String) (seen : List String) (name : String) (type cardinality : Json)
    (doc : Option Json) : List Problem :=
  let entity := owner ++ "." ++ name
  require (Grammar.isPropertyName name) entity .propertyNameForm ++
    require (!seen.contains name) entity .propertyTwice ++
    checkPropertyRest entity type cardinality doc

/-- The parts of a property entry: name, type, cardinality and perhaps a doc. -/
def propertyParts? : Json → Option (Json × Json × Json × Option Json)
  | .list [name, type, cardinality] => some (name, type, cardinality, none)
  | .list [name, type, cardinality, doc] => some (name, type, cardinality, some doc)
  | _ => none

/-- The name of a property entry, if it has one. -/
def propertyName? (entry : Json) : Option String := (propertyParts? entry).bind fun parts => parts.1.text?

/-- Checks one property entry after others with the given names. -/
def checkProperty (owner : String) (seen : List String) (entry : Json) : List Problem :=
  match propertyParts? entry with
  | none => [⟨owner, .propertyForm entry⟩]
  | some (.text name, type, cardinality, doc) => checkNamedProperty owner seen name type cardinality doc
  | some (name, _, _, _) => [⟨owner, .propertyNameKind name⟩]

/-- Checks the property entries of a class in order. -/
def checkProperties (owner : String) (seen : List String) : List Json → List Problem
  | [] => []
  | entry :: rest =>
    checkProperty owner seen entry ++ checkProperties owner ((propertyName? entry).toList ++ seen) rest

/-- Whether an entry is a property name, a kind and any value. -/
def isConstraint : Json → Bool
  | .list [.text _, .text _, _] => true
  | _ => false

/-- Whether an entry is a property name, a rule and perhaps a type or null. -/
def isDecoding : Json → Bool
  | .list [.text _, .text _] => true
  | .list [.text _, .text _, .text _] => true
  | .list [.text _, .text _, .null] => true
  | _ => false

/-- Checks the base of a class. -/
def checkBase (entity : String) (body : List (String × Json)) : List Problem :=
  match Json.field? "base" body with
  | none => [⟨entity, .baseMissing⟩]
  | some .null => []
  | some (.text base) => require (Grammar.isQualifiedName base) entity (.baseForm (.text base))
  | some other => [⟨entity, .baseForm other⟩]

/-- Checks a flag that must be a boolean. -/
def checkFlag (entity : String) (body : List (String × Json)) (key : String) (missing wrong : Complaint) :
    List Problem :=
  match Json.field? key body with
  | none => [⟨entity, missing⟩]
  | some (.boolean _) => []
  | some _ => [⟨entity, wrong⟩]

/-- Checks the doc strings of a class. -/
def checkDocStrings (entity : String) (body : List (String × Json)) : List Problem :=
  match Json.field? "doc_strings" body with
  | none => []
  | some .null => []
  | some (.object _) => []
  | some _ => [⟨entity, .docStringsForm⟩]

/-- Checks the body of a class. -/
def checkClass (entity : String) (body : List (String × Json)) : List Problem :=
  checkBase entity body ++
    checkFlag entity body "is_abstract" .abstractMissing .abstractForm ++
    checkList entity body "properties" (checkProperties entity []) ++
    checkList entity body "constraints" (fun entries =>
      entries.flatMap fun entry => require (isConstraint entry) entity (.constraintForm entry)) ++
    checkList entity body "decodings" (fun entries =>
      entries.flatMap fun entry => require (isDecoding entry) entity (.decodingForm entry)) ++
    checkDocStrings entity body

/-- The name of a member: the entry itself or the first of at most two fields. -/
def memberName? : Json → Option String
  | .text name => some name
  | .list [.text name] => some name
  | .list [.text name, _] => some name
  | _ => none

/-- Checks the members of an enumeration in order. -/
def checkMembers (entity : String) (seen : List String) : List Json → List Problem
  | [] => []
  | member :: rest =>
    (match memberName? member with
      | none => [⟨entity, .memberForm member⟩]
      | some name => require (!seen.contains name) (entity ++ "." ++ name) .memberTwice) ++
      checkMembers entity ((memberName? member).toList ++ seen) rest

/-- Checks the body of an enumeration. -/
def checkEnum (entity : String) (body : List (String × Json)) : List Problem :=
  checkFlag entity body "is_open" .openMissing .openForm ++
    (match Json.field? "members" body with
      | none => [⟨entity, .membersMissing⟩]
      | some (.list members) => checkMembers entity [] members
      | some _ => [⟨entity, .membersForm⟩])

/-- Checks the kind that a body declares, if it does. -/
def checkKind (entity : String) (body : List (String × Json)) (kind : TypeKind) : List Problem :=
  match Json.field? "type" body with
  | none => []
  | some declared => require (declared == .text kind.text) entity (.kindMismatch declared kind)

/-- Checks one definition. -/
def checkDefinition (packageName : String) (d : Definition) : List Problem :=
  let entity := packageName ++ "." ++ d.name
  require (Grammar.isName d.name) entity .typeNameForm ++
    (match d.body with
      | .object body =>
        checkKind entity body d.kind ++
          (match d.kind with
            | .ofClass => checkClass entity body
            | .ofEnum => checkEnum entity body)
      | _ => [⟨entity, .notObject d.kind⟩])

/-- Checks one package. -/
def checkPackage (p : Schema.Package) : List Problem :=
  require (Grammar.isName p.name) p.name .packageNameForm ++
    require (!Text.isBlankText (p.doc.getD "")) p.name .packageDocMissing ++
    require (p.classes.isSome || p.enums.isSome) p.name .packageEmpty ++
    p.definitions.flatMap (checkDefinition p.name)

/-- Checks name, version and number of packages. -/
def checkHead (s : Schema) : List Problem :=
  let entity := if s.name = "" then "schema" else s.name
  (if s.name = "" then [⟨entity, .nameMissing⟩] else require (Grammar.isName s.name) entity .nameForm) ++
    require (!Text.isBlankText s.version) entity .versionMissing ++
    require (!s.packages.isEmpty) entity .noPackages

end Validation

/-- The problems of a schema, in schema order. A schema without problems may be built. -/
def Schema.problems (s : Schema) : List Problem :=
  Validation.checkHead s ++ s.packages.flatMap Validation.checkPackage

end OntologyCompiler
