import OntologyCompiler.Backend.Literal
import OntologyCompiler.Backend.Module

/-!
# Data model modules

One module per package with its classes and enumerations. A base class must be defined before what
derives from it, so packages with bases are imported at the top, and a package that derives from this
one is imported at the tail.
-/

namespace OntologyCompiler.DataModel

/-- What the names of data model modules end in. -/
def suffix : String := "typeset"

/-- The data model module of a package. -/
def moduleOf (package : String) : String := Naming.moduleName package suffix

/-- The names of the other packages that hold bases of the classes of a package. -/
def basePackages (o : Ontology) (p : Package) : OrderedSet String :=
  let owners := (p.classes.filterMap o.class?).filterMap fun c =>
    (c.base.bind o.class?).map Class.package
  OrderedSet.ofList ((owners.filter fun owner => owner ≠ p.id).map o.packageName)

/-- Whether a class of a package has its base in another package. -/
def derivesFrom (o : Ontology) (package other : String) : Bool :=
  match o.findPackage package with
  | none => false
  | some p => other ∈ basePackages o p

/-- The Python type of a scalar. -/
def scalarType : ScalarKind → String
  | .bool => "bool"
  | .date => "datetime.date"
  | .datetime => "datetime.datetime"
  | .float => "float"
  | .int => "int"
  | .str => "str"
  | .uri => "str"
  | .uuid => "uuid.UUID"
  | .unicode => "str"

/-- A name of a package as seen from another one. -/
def qualify (owner package name : String) : String :=
  if owner = package then name else moduleOf owner ++ "." ++ name

/-- The Python type of a value type as seen from a package. -/
def pythonType (o : Ontology) (t : ValueType) (package : String) : String :=
  match t.target with
  | .scalar kind => scalarType kind
  | .unresolved name => "'" ++ name ++ "'"
  | .resolved entity =>
    let name := ((t.qualifiedParts.map Prod.snd).getD t.name)
    let owner := ((o.entityPackage? entity).map o.packageName).getD ""
    qualify owner package (Naming.className name)

/-- The first value of an attribute: a constant, an empty list or nothing. -/
def initialValue (o : Ontology) (c : Class) (p : Property) : String :=
  match o.constraintFor c.id p.name .constant with
  | some constant => Literal.render constant.value
  | none => if p.cardinality.isIterative then "[]" else "None"

/-- The line that sets an attribute. -/
def attributeLine (o : Ontology) (c : Class) (package : String) (p : Property) : String :=
  "        self." ++ Naming.attributeName p.name ++ " = " ++ initialValue o c p ++ "  # " ++
    pythonType o p.type package ++ " (" ++ p.cardinality.render ++ ")"

/-- The base of a class as seen from its package. -/
def baseName (o : Ontology) (c : Class) (package : String) : String :=
  match c.base.bind o.class? with
  | some base => qualify (o.packageName base.package) package (Naming.className base.name)
  | none => if c.isAbstract then "abc.ABC" else "object"

/-- The code of a class. -/
def classText (o : Ontology) (c : Class) (package : String) : String :=
  let attributes := (o.visibleProperties c.id).map (attributeLine o c package)
  Text.join "\n" <|
    [ "class " ++ Naming.className c.name ++ "(" ++ baseName o c package ++ "):",
      Docstring.render c.doc "    ",
      "",
      "    def __init__(self):",
      "        \"\"\"Instance constructor.\"\"\"" ] ++
    (if attributes.isEmpty then ["        pass"] else attributes)

/-- The comment behind a member. -/
def memberComment (doc : String) : String :=
  if Text.isBlankText doc then "" else "  # " ++ Text.trimmed doc

/-- The line of a member. -/
def memberLine (m : EnumMember) (constant : String) : String :=
  "    " ++ constant ++ " = " ++ Json.quote m.name ++ memberComment m.doc

/-- The code of an enumeration. -/
def enumText (e : Enumeration) : String :=
  let name := Naming.className e.name
  let constants := Naming.uniqueConstants (e.members.map EnumMember.name)
  Text.join "\n" <|
    [ "class " ++ name ++ "(enum.Enum):", Docstring.render e.doc "    " ] ++
    (if e.members.isEmpty then ["    pass"] else []) ++
    List.zipWith memberLine e.members constants ++
    [ "", "", name ++ ".is_open = " ++ Literal.flag e.isOpen ]

/-- The header of a module. -/
def header (o : Ontology) (p : Package) : List String :=
  CodeModule.docHeader o (moduleOf p.name) ++
    ["", "import abc", "import datetime", "import enum", "import uuid"]

/-- A new module for a package. -/
def openModule (o : Ontology) (p : Package) : CodeModule :=
  { CodeModule.new (header o p) with
    eager := OrderedSet.ofList ((basePackages o p).toList.map moduleOf) }

/-- Adds the import of an edge to the module of a package. -/
def addImport (o : Ontology) (package : String) (m : CodeModule) (e : ImportEdge) : CodeModule :=
  if e.package = package then m
  else if derivesFrom o e.package package then { m with deferred := m.deferred.insert (moduleOf e.package) }
  else { m with imports := m.imports.insert (moduleOf e.package) }

/-- Adds a deferred import to the module of a package. -/
def addDeferred (package : String) (m : CodeModule) (e : ImportEdge) : CodeModule :=
  if e.package = package then m
  else { m with deferred := m.deferred.insert (moduleOf e.package) }

/-- Adds a class to the module of its package. -/
def addClass (o : Ontology) (p : Package) (c : Class) (m : CodeModule) : CodeModule :=
  let m := c.imports.toList.foldl (addImport o p.name) m
  let m := c.circularImports.toList.foldl (addDeferred p.name) m
  m.push ⟨0, (o.ancestors c.id).length, classText o c p.name⟩

/-- Adds an enumeration to the module of its package. -/
def addEnum (e : Enumeration) (m : CodeModule) : CodeModule := m.push ⟨1, 0, enumText e⟩

/-- The answer to a stop. -/
def visit (o : Ontology) (_ : GenerationOptions) (v : Visit) (d : Draft) : List Emission × Draft :=
  match v, v.package? o with
  | .package p, _ => ([], { d with modules := d.modules.insert p.name (openModule o p) })
  | .ofClass c, some p => ([], { d with modules := d.modules.update p.name (addClass o p c) })
  | .ofEnum e, some p => ([], { d with modules := d.modules.update p.name (addEnum e) })
  | .finish, _ => (d.modules.emissions o suffix, { d with modules := ∅ })
  | _, _ => ([], d)

/-- The backend. -/
def generator : Generator Draft where
  name := "python-typeset"
  isRequired _ := true
  visit := visit

end OntologyCompiler.DataModel
