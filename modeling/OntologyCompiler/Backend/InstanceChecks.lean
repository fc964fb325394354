import OntologyCompiler.Backend.DataModel

/-!
# Checking modules

One module per package that has classes which are not abstract, with a function for each such class
that checks the cardinalities of an instance.
-/

namespace OntologyCompiler.InstanceChecks

/-- What the names of checking modules end in. -/
def suffix : String := "validator"

/-- The header of a module: its docstring and the import of the data model. -/
def header (o : Ontology) (p : Package) : List String :=
  CodeModule.docHeader o (Naming.moduleName p.name suffix) ++
    ["", CodeModule.importLine (DataModel.moduleOf p.name) ++ " as typeset"]

/-- The expression that reads the attribute of a property. -/
def attributeOf (p : Property) : String := "instance." ++ Naming.attributeName p.name

/-- The line that records an error. -/
def errorLine (text : String) : String := "        errors.append(\"" ++ text ++ "\")"

/-- The lines that check a property. -/
def propertyLines (c : Class) (p : Property) : List String :=
  let target := attributeOf p
  let entity := c.qualifiedName ++ "." ++ p.name
  if p.cardinality.isIterative then
    [ "    if not isinstance(" ++ target ++ ", list):", errorLine (entity ++ " must be a list") ] ++
      (if p.cardinality.isRequired then
        [ "    elif not " ++ target ++ ":", errorLine (entity ++ " requires at least one value") ]
      else [])
  else if p.cardinality.isRequired then
    [ "    if " ++ target ++ " is None:", errorLine (entity ++ " is required") ]
  else []

/-- The function of a class. -/
def functionText (o : Ontology) (c : Class) : String :=
  Text.join "\n" <|
    [ "def validate_" ++ Naming.attributeName c.name ++ "(instance):",
      "    \"\"\"Validates an instance of " ++ c.qualifiedName ++ ".\"\"\"",
      "    errors = []",
      "    if not isinstance(instance, typeset." ++ Naming.className c.name ++ "):",
      "        return [\"expected an instance of " ++ c.qualifiedName ++ "\"]" ] ++
    (o.visibleProperties c.id).flatMap (propertyLines c) ++
    [ "    return errors" ]

/-- The answer to a stop. -/
def visit (o : Ontology) (_ : GenerationOptions) (v : Visit) (d : Draft) : List Emission × Draft :=
  match v, v.package? o with
  | .package p, _ =>
    if (o.concreteClasses p.id).isEmpty then ([], d)
    else ([], { d with modules := d.modules.insert p.name (CodeModule.new (header o p)) })
  | .ofClass c, some p =>
    if c.isAbstract then ([], d)
    else ([], { d with modules := d.modules.update p.name fun m => m.push ⟨0, 0, functionText o c⟩ })
  | .finish, _ => (d.modules.emissions o suffix, { d with modules := ∅ })
  | _, _ => ([], d)

/-- The backend. -/
def generator : Generator Draft where
  name := "python-validator"
  isRequired _ := true
  visit := visit

end OntologyCompiler.InstanceChecks
