import OntologyCompiler.Json.Basic

/-!
# Schemas

The declarative input: a named and versioned list of packages, each mapping type names to loose
definition bodies. A package may lack its map of classes or of enumerations, which is not the same as
having an empty one.
-/

namespace OntologyCompiler

/-- The two kinds of types. -/
inductive TypeKind where
  | ofClass
  | ofEnum
  deriving DecidableEq, Repr, Inhabited

/-- The word for a kind in a definition body. -/
def TypeKind.text : TypeKind → String
  | .ofClass => "class"
  | .ofEnum => "enum"

/-- The definition bodies of one kind, by type name. -/
abbrev DefinitionMap := OrderedMap String Json

/-- The definition of one type. -/
structure Definition where
  kind : TypeKind
  name : String
  body : Json
  deriving DecidableEq, Inhabited

/-- A package of a schema. -/
structure Schema.Package where
  name : String
  doc : Option String
  classes : Option DefinitionMap
  enums : Option DefinitionMap
  deriving DecidableEq, Inhabited

/-- A schema. -/
structure Schema where
  name : String
  version : String
  doc : String
  packages : List Schema.Package
  deriving DecidableEq, Inhabited

namespace Schema

namespace Package

/-- A package without definitions. -/
def new (name doc : String) : Package := ⟨name, some doc, none, none⟩

/-- The package with one class set. -/
def withClass (p : Package) (name : String) (body : Json) : Package :=
  { p with classes := some ((p.classes.getD ∅).insert name body) }

/-- The package with one enumeration set. -/
def withEnum (p : Package) (name : String) (body : Json) : Package :=
  { p with enums := some ((p.enums.getD ∅).insert name body) }

/-- The package without the types of a name. -/
def drop (p : Package) (name : String) : Package :=
  { p with
    classes := p.classes.map fun m => m.erase name
    enums := p.enums.map fun m => m.erase name }

/-- The package under another name. -/
def rename (p : Package) (name : String) : Package := { p with name := name }

/-- The definitions of one kind in order of their names. -/
def definitionsOf (kind : TypeKind) (m : Option DefinitionMap) : List Definition :=
  ((m.map OrderedMap.entries).getD []).map fun e => ⟨kind, e.1, e.2⟩

/-- All definitions, classes first, each kind in order of names. -/
def definitions (p : Package) : List Definition :=
  definitionsOf .ofClass p.classes ++ definitionsOf .ofEnum p.enums

/-- The qualified name of a type of the package. -/
def qualifiedName (p : Package) (typeName : String) : String := p.name ++ "." ++ typeName

end Package

/-- The number of types in all packages. -/
def definitionCount (s : Schema) : Nat := (s.packages.flatMap Package.definitions).length

/-- The schema with one more package at the end. -/
def addPackage (s : Schema) (p : Package) : Schema := { s with packages := s.packages ++ [p] }

end Schema

end OntologyCompiler
