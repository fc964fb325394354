import OntologyCompiler.Failure
import OntologyCompiler.Ontology.Basic
import OntologyCompiler.Schema.Basic

/-!
# Declarations

A schema with its loose bodies read into types, before anything refers to anything. The first faulty
definition stops the reading, packages as listed, classes before enumerations, each by name.
-/

namespace OntologyCompiler

/-- A property as declared. -/
structure PropertyDeclaration where
  name : String
  type : ValueType
  cardinality : Cardinality
  doc : String
  deriving DecidableEq, Repr, Inhabited

/-- A class as declared. -/
structure ClassDeclaration where
  name : String
  qualifiedName : String
  base : Option String
  isAbstract : Bool
  doc : String
  properties : List PropertyDeclaration
  constraints : List Constraint
  decodings : List Decoding
  deriving DecidableEq, Inhabited

/-- An enumeration as declared. -/
structure EnumDeclaration where
  name : String
  qualifiedName : String
  isOpen : Bool
  doc : String
  members : List EnumMember
  deriving DecidableEq, Repr, Inhabited

/-- A class or an enumeration as declared. -/
inductive TypeDeclaration where
  | ofClass (declaration : ClassDeclaration)
  | ofEnum (declaration : EnumDeclaration)
  deriving DecidableEq, Inhabited

/-- A package as declared. -/
structure PackageDeclaration where
  name : String
  doc : String
  types : List TypeDeclaration
  deriving DecidableEq, Inhabited

/-- The property name that generated code keeps for itself. -/
def reservedProperty : String := "ext"

namespace Declaration

/-- The outcome of reading a declaration. -/
abbrev Declared (α : Type) := Except CompileError α

/-- A structural fault of an entity. -/
def fail {α : Type} (entity : String) (fault : StructureFault) : Declared α :=
  .error (.invalidStructure entity fault)

/-- A text field that may be missing or anything else. -/
def textOrEmpty (body : List (String × Json)) (key : String) : String :=
  ((Json.field? key body).bind Json.text?).getD ""

/-- A flag that may be missing or anything else. -/
def flagOrFalse (body : List (String × Json)) (key : String) : Bool :=
  ((Json.field? key body).bind Json.boolean?).getD false

/-- The items of a list that may be absent or null. -/
def listField (owner : String) (body : List (String × Json)) (key : String) : Declared (List Json) :=
  match Json.field? key body with
  | none => .ok []
  | some .null => .ok []
  | some (.list items) => .ok items
  | some _ => fail owner (.notList key)

/-- The fields of an entry that must be a list of a given length. -/
def tuple (owner : String) (part : SchemaPart) (least most : Nat) : Json → Declared (List Json)
  | .list fields =>
    if fields.length < least ∨ most < fields.length then
      fail owner (.wrongArity part fields.length least most)
    else .ok fields
  | _ => fail owner (.notTuple part)

/-- The text at a position of an entry. -/
def textAt (owner : String) (part : SchemaPart) (fields : List Json) (position : Nat) : Declared String :=
  match fields[position]? with
  | some (.text s) => .ok s
  | _ => fail owner (.notText part)

/-- The doc of a property: in its entry, else among the doc strings of the class. -/
def propertyDoc (docStrings : List (String × Json)) (name : String) (fields : List Json) : String :=
  match (fields[3]? : Option Json) with
  | some (.text doc) => doc
  | _ => textOrEmpty docStrings name

/-- Reads a property entry. -/
def readProperty (owner : String) (docStrings : List (String × Json)) (entry : Json) :
    Declared PropertyDeclaration := do
  let fields ← tuple owner .property 3 4 entry
  let name ← textAt owner .propertyName fields 0
  let entity := owner ++ "." ++ name
  if name = reservedProperty then fail entity (.reservedProperty reservedProperty)
  let type ← textAt entity .propertyType fields 1
  let encoding ← textAt entity .cardinality fields 2
  match Cardinality.parse? encoding with
  | none => fail entity (.unknownCardinality encoding)
  | some cardinality =>
    pure ⟨name, ValueType.parse type, cardinality, propertyDoc docStrings name fields⟩

/-- Reads property entries after others with the given names. -/
def readProperties (owner : String) (docStrings : List (String × Json)) (seen : List String) :
    List Json → Declared (List PropertyDeclaration)
  | [] => .ok []
  | entry :: rest => do
    let p ← readProperty owner docStrings entry
    if p.name ∈ seen then fail (owner ++ "." ++ p.name) .propertyTwice
    let ps ← readProperties owner docStrings (p.name :: seen) rest
    pure (p :: ps)

/-- Reads a constraint entry. -/
def readConstraint (owner : String) (entry : Json) : Declared Constraint := do
  let fields ← tuple owner .constraint 3 3 entry
  let property ← textAt owner .constraintProperty fields 0
  let kind ← textAt owner .constraintKind fields 1
  pure ⟨property, ConstraintKind.parse kind, fields[2]?.getD .null⟩

/-- Reads a decoding entry; its type is looked at first. -/
def readDecoding (owner : String) (entry : Json) : Declared Decoding := do
  let fields ← tuple owner .decoding 2 3 entry
  let overrideType ←
    match (fields[2]? : Option Json) with
    | none => pure none
    | some .null => pure none
    | some _ => do
      let type ← textAt owner .decodingType fields 2
      pure (some (ValueType.parse type))
  let property ← textAt owner .decodingProperty fields 0
  let rule ← textAt owner .decodingRule fields 1
  pure ⟨property, rule, overrideType⟩

/-- Reads entries in order. -/
def readEach {α : Type} (read : Json → Declared α) : List Json → Declared (List α)
  | [] => .ok []
  | entry :: rest => do
    let a ← read entry
    let as ← readEach read rest
    pure (a :: as)

/-- Reads the body of a class. -/
def readClass (name qualifiedName : String) (body : List (String × Json)) : Declared ClassDeclaration := do
  let docStrings := ((Json.field? "doc_strings" body).bind Json.object?).getD []
  let properties ← readProperties qualifiedName docStrings [] (← listField qualifiedName body "properties")
  let constraints ← readEach (readConstraint qualifiedName) (← listField qualifiedName body "constraints")
  let decodings ← readEach (readDecoding qualifiedName) (← listField qualifiedName body "decodings")
  pure {
    name, qualifiedName, properties, constraints, decodings
    base := (Json.field? "base" body).bind Json.text?
    isAbstract := flagOrFalse body "is_abstract"
    doc := textOrEmpty body "doc" }

/-- Reads a member of an enumeration. -/
def readMember (owner : String) (entry : Json) : Declared EnumMember :=
  match entry with
  | .text name => .ok ⟨name, ""⟩
  | .list _ => do
    let fields ← tuple owner .member 1 2 entry
    let name ← textAt owner .memberName fields 0
    pure ⟨name, (fields[1]?.bind Json.text?).getD ""⟩
  | _ => fail owner .memberShape

/-- Reads members after others with the given names. -/
def readMembers (owner : String) (seen : List String) : List Json → Declared (List EnumMember)
  | [] => .ok []
  | entry :: rest => do
    let m ← readMember owner entry
    if m.name ∈ seen then fail (owner ++ "." ++ m.name) .memberTwice
    let ms ← readMembers owner (m.name :: seen) rest
    pure (m :: ms)

/-- Reads the body of an enumeration. -/
def readEnum (name qualifiedName : String) (body : List (String × Json)) : Declared EnumDeclaration := do
  let members ← readMembers qualifiedName [] (← listField qualifiedName body "members")
  pure {
    name, qualifiedName
    isOpen := flagOrFalse body "is_open"
    doc := textOrEmpty body "doc"
    members := members.mergeSort fun a b => (compare a.name b.name).isLE }

/-- Reads one definition of a package after types with the given qualified names. -/
def readType (package : String) (seen : List String) (d : Definition) : Declared TypeDeclaration := do
  let qualifiedName := package ++ "." ++ d.name
  if qualifiedName ∈ seen then fail qualifiedName .definedTwice
  match d.body with
  | .object body =>
    match d.kind with
    | .ofClass => (readClass d.name qualifiedName body).map .ofClass
    | .ofEnum => (readEnum d.name qualifiedName body).map .ofEnum
  | _ => fail qualifiedName .bodyNotObject

/-- Reads the definitions of a package. -/
def readTypes (package : String) (seen : List String) : List Definition → Declared (List TypeDeclaration)
  | [] => .ok []
  | d :: rest => do
    let t ← readType package seen d
    let ts ← readTypes package ((package ++ "." ++ d.name) :: seen) rest
    pure (t :: ts)

/-- The qualified names of the types of a package. -/
def qualifiedNames (p : Schema.Package) : List String := p.definitions.map fun d => p.name ++ "." ++ d.name

/-- Reads packages in order. -/
def readPackages (seen : List String) : List Schema.Package → Declared (List PackageDeclaration)
  | [] => .ok []
  | p :: rest => do
    let types ← readTypes p.name seen p.definitions
    let ps ← readPackages (qualifiedNames p ++ seen) rest
    pure (⟨p.name, p.doc.getD "", types⟩ :: ps)

end Declaration

/-- The declarations of a schema. -/
def Schema.declarations (s : Schema) : Except CompileError (List PackageDeclaration) :=
  Declaration.readPackages [] s.packages

namespace PackageDeclaration

/-- The classes of a package. -/
def classes (p : PackageDeclaration) : List ClassDeclaration :=
  p.types.filterMap fun t => match t with | .ofClass c => some c | .ofEnum _ => none

/-- The enumerations of a package. -/
def enums (p : PackageDeclaration) : List EnumDeclaration :=
  p.types.filterMap fun t => match t with | .ofClass _ => none | .ofEnum e => some e

end PackageDeclaration

end OntologyCompiler
