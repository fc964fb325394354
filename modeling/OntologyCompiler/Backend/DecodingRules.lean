import OntologyCompiler.Backend.DataModel

/-!
# Decoding modules

One module per package that has classes with own or inherited decodings, with a function for each such
class that returns the class and its rules.
-/

namespace OntologyCompiler.DecodingRules

/-- What the names of decoding modules end in. -/
def suffix : String := "decoder"

/-- The header of a module: its docstring and the import of the data model. -/
def header (o : Ontology) (p : Package) : List String :=
  CodeModule.docHeader o (Naming.moduleName p.name suffix) ++
    ["", CodeModule.importLine (DataModel.moduleOf p.name) ++ " as typeset"]

/-- The line of a rule. -/
def ruleLine (o : Ontology) (package : String) (d : Decoding) : String :=
  let target :=
    match d.overrideType with
    | some t => Json.quote (DataModel.pythonType o t package)
    | none => "None"
  "        (" ++ Json.quote d.property ++ ", " ++ Json.quote d.rule ++ ", " ++ target ++ "),"

/-- The function of a class. -/
def functionText (o : Ontology) (c : Class) (package : String) : String :=
  Text.join "\n" <|
    [ "def decode_" ++ Naming.attributeName c.name ++ "():",
      "    \"\"\"Decoding rules of " ++ c.qualifiedName ++ ".\"\"\"",
      "    rules = [" ] ++
    (o.allDecodings c.id).map (ruleLine o package) ++
    [ "    ]", "    return typeset." ++ Naming.className c.name ++ ", rules" ]

/-- Whether a package has a class with decodings. -/
def hasDecodings (o : Ontology) (p : Package) : Bool :=
  p.classes.any fun id => !(o.allDecodings id).isEmpty

/-- The answer to a stop. -/
def visit (o : Ontology) (_ : GenerationOptions) (v : Visit) (d : Draft) : List Emission × Draft :=
  match v, v.package? o with
  | .package p, _ =>
    if hasDecodings o p then
      ([], { d with modules := d.modules.insert p.name (CodeModule.new (header o p)) })
    else ([], d)
  | .ofClass c, some p =>
    if (o.allDecodings c.id).isEmpty then ([], d)
    else
      ([], { d with modules := d.modules.update p.name fun m => m.push ⟨0, 0, functionText o c p.name⟩ })
  | .finish, _ => (d.modules.emissions o suffix, { d with modules := ∅ })
  | _, _ => ([], d)

/-- The backend, which has nothing to do for an ontology without decodings. -/
def generator : Generator Draft where
  name := "python-decoder"
  isRequired o := 0 < o.decodingCount
  visit := visit

end OntologyCompiler.DecodingRules
