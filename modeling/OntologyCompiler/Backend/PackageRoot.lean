import OntologyCompiler.Backend.DataModel
import OntologyCompiler.Resolution.Packages

/-!
# The root module

The module that makes a Python package of the generated files: it imports the data model modules,
needed ones first, and lists the classes that are documents of their own.
-/

namespace OntologyCompiler.PackageRoot

/-- The listed name of a document class. -/
def entry (p : Package) (c : Class) : String :=
  DataModel.moduleOf p.name ++ "." ++ Naming.className c.name

/-- The data model modules in the order in which they are imported. -/
def imports (o : Ontology) : List String := o.packageOrder.map fun id => DataModel.moduleOf (o.packageName id)

/-- The text of the module. -/
def render (o : Ontology) (listing : List String) : String :=
  Text.join "\n" <|
    CodeModule.docHeader o (Naming.snake o.name) ++ [""] ++
    (imports o).map CodeModule.importLine ++
    [ "", "",
      "NAME = " ++ Json.quote o.name,
      "VERSION = " ++ Json.quote o.version,
      "", "ENTITIES = (" ] ++
    (listing.map fun line => "    " ++ line ++ ",") ++
    [ ")", "" ]

/-- The answer to a stop. -/
def visit (o : Ontology) (_ : GenerationOptions) (v : Visit) (d : Draft) : List Emission × Draft :=
  match v, v.package? o with
  | .start, _ => ([], { d with listing := [] })
  | .ofClass c, some p =>
    if !c.isAbstract && o.isEntity c.id then ([], { d with listing := d.listing ++ [entry p c] })
    else ([], d)
  | .finish, _ => ([⟨render o d.listing, CodeModules.directory o, "__init__.py"⟩], d)
  | _, _ => ([], d)

/-- The backend. -/
def generator : Generator Draft where
  name := "python-root"
  isRequired _ := true
  visit := visit

end OntologyCompiler.PackageRoot
