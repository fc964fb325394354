import OntologyCompiler.Text.Blank
import OntologyCompiler.Text.Pieces

/-!
# Value types

The type of a property or of a decoding: a scalar, or a dotted reference that is bound to a class or
an enumeration once all packages are known. A type in `linked_to(...)` is an association; it may name
alternatives behind its primary name.
-/

namespace OntologyCompiler

/-- The position of a package in an ontology. -/
structure PackageId where
  index : Nat
  deriving DecidableEq, Repr, Inhabited

/-- The position of a class in an ontology. -/
structure ClassId where
  index : Nat
  deriving DecidableEq, Repr, Inhabited

/-- The position of an enumeration in an ontology. -/
structure EnumId where
  index : Nat
  deriving DecidableEq, Repr, Inhabited

/-- The position of a property in an ontology. -/
structure PropertyId where
  index : Nat
  deriving DecidableEq, Repr, Inhabited

/-- A class or an enumeration. -/
inductive EntityId where
  | ofClass (id : ClassId)
  | ofEnum (id : EnumId)
  deriving DecidableEq, Repr, Inhabited

/-- The built-in scalar types. -/
inductive ScalarKind where
  | bool
  | date
  | datetime
  | float
  | int
  | str
  | uri
  | uuid
  | unicode
  deriving DecidableEq, Repr, Inhabited

namespace ScalarKind

/-- All scalar types. -/
def all : List ScalarKind := [.bool, .date, .datetime, .float, .int, .str, .uri, .uuid, .unicode]

/-- The keyword of a scalar type. -/
def keyword : ScalarKind → String
  | .bool => "bool"
  | .date => "date"
  | .datetime => "datetime"
  | .float => "float"
  | .int => "int"
  | .str => "str"
  | .uri => "uri"
  | .uuid => "uuid"
  | .unicode => "unicode"

/-- The scalar type of a keyword. -/
def ofKeyword? (word : String) : Option ScalarKind := all.find? fun kind => kind.keyword == word

/-- A keyword stands for its scalar type. -/
theorem ofKeyword?_keyword (kind : ScalarKind) : ofKeyword? kind.keyword = some kind := by
  cases kind <;> decide

end ScalarKind

/-- What a type points at. -/
inductive TypeTarget where
  | scalar (kind : ScalarKind)
  | unresolved (name : String)
  | resolved (entity : EntityId)
  deriving DecidableEq, Repr, Inhabited

/-- The type of a property or of a decoding. -/
structure ValueType where
  /-- The primary name as written, without `linked_to`. -/
  name : String
  isLinked : Bool
  /-- The further names in `linked_to`. -/
  alternates : List String
  target : TypeTarget
  deriving DecidableEq, Repr, Inhabited

/-- The two parts of `package.name`, if there are exactly two and neither is empty. -/
def splitQualified (name : String) : Option (String × String) :=
  match Text.cut? '.' name.toList with
  | none => none
  | some (package, typeName) =>
    if package.isEmpty || typeName.isEmpty || typeName.contains '.' then none
    else some (String.ofList package, String.ofList typeName)

namespace ValueType

/-- What stands in front of the names of an association. -/
def linkedStart : String := "linked_to("

/-- The characters between `linked_to(` and the closing parenthesis at the end. -/
def linkedPart? (cs : List Char) : Option (List Char) :=
  (Text.dropStart? linkedStart.toList cs).bind (Text.dropEnd? ')')

/-- The names between commas, trimmed, without empty ones. -/
def linkedNames (inner : List Char) : List (List Char) :=
  ((Text.pieces ',' inner).map Text.trim).filter fun name => !name.isEmpty

/-- What a name points at before any reference is bound. -/
def initialTarget (name : String) : TypeTarget :=
  match ScalarKind.ofKeyword? name with
  | some kind => .scalar kind
  | none => .unresolved name

/-- Reads a type. A bare word that is no scalar is kept as an unresolved name. -/
def parse (raw : String) : ValueType :=
  let cs := Text.trim raw.toList
  match linkedPart? cs with
  | some inner =>
    let names := (linkedNames inner).map String.ofList
    let name := names.headD ""
    ⟨name, true, names.tail, initialTarget name⟩
  | none =>
    let name := String.ofList cs
    ⟨name, false, [], initialTarget name⟩

/-- The type as a schema writes it. -/
def render (t : ValueType) : String :=
  if t.isLinked then linkedStart ++ (Text.join ", " (t.name :: t.alternates) ++ ")") else t.name

/-- Whether the name has a package. -/
def isComplex (t : ValueType) : Bool := t.name.toList.contains '.'

/-- Whether the name has no package. -/
def isSimple (t : ValueType) : Bool := !t.isComplex

/-- The scalar that the type points at. -/
def scalar? (t : ValueType) : Option ScalarKind :=
  match t.target with
  | .scalar kind => some kind
  | _ => none

/-- The class or enumeration that the type points at. -/
def entity? (t : ValueType) : Option EntityId :=
  match t.target with
  | .resolved entity => some entity
  | _ => none

/-- The class that the type points at. -/
def classId? (t : ValueType) : Option ClassId :=
  match t.target with
  | .resolved (.ofClass id) => some id
  | _ => none

/-- Whether the type points at a class. -/
def isClass (t : ValueType) : Bool := t.classId?.isSome

/-- Whether the type points at an enumeration. -/
def isEnum (t : ValueType) : Bool :=
  match t.target with
  | .resolved (.ofEnum _) => true
  | _ => false

/-- Whether the type points at anything. -/
def isResolved (t : ValueType) : Bool :=
  match t.target with
  | .unresolved _ => false
  | _ => true

/-- Package and name of the primary reference. -/
def qualifiedParts (t : ValueType) : Option (String × String) := splitQualified t.name

end ValueType

end OntologyCompiler
