import OntologyCompiler.Files.Tree
import OntologyCompiler.Schema.Codec
import OntologyCompiler.Version.Label

/-!
# Schema directories

Schemas on disk: a directory per schema, in it a directory per version, in it a JSON file per package
and perhaps one about the ontology as a whole. A requested version is matched by its value, not by its
text; the word `latest` asks for the greatest one.
-/

namespace OntologyCompiler

/-- What the file about an ontology says. -/
structure OntologyFile where
  name : Option String
  version : Option String
  doc : String
  deriving DecidableEq, Repr, Inhabited

/-- What the file of a package says. -/
structure PackageFile where
  doc : Option String
  classes : Option DefinitionMap
  enums : Option DefinitionMap
  deriving DecidableEq, Inhabited

namespace OntologyFile

open Json

/-- The name of the file about an ontology. -/
def fileName : String := "ontology.json"

/-- The shape of the file. -/
def shape : Shape := .record [("name", .optional .text), ("version", .optional .text), ("doc", .text)]

/-- Reads the contents of the file. -/
def ofJson (v : Json) : Decoded OntologyFile := do
  let r ← asRecord ["name", "version", "doc"] v
  let name ← r.withDefault "name" none (asOption asText)
  let version ← r.withDefault "version" none (asOption asText)
  let doc ← r.withDefault "doc" "" asText
  pure ⟨name, version, doc⟩

/-- Reads the text of the file. -/
def ofText (s : String) : Except ReadFailure OntologyFile := do
  let v ← shape.readText s
  ofJson v

end OntologyFile

namespace PackageFile

open Json

/-- The shape of the file. -/
def shape : Shape :=
  .record [("doc", .optional .text), ("classes", Schema.definitionsShape), ("enums", Schema.definitionsShape)]

/-- Reads the contents of the file. -/
def ofJson (v : Json) : Decoded PackageFile := do
  let r ← asRecord ["doc", "classes", "enums"] v
  let doc ← r.withDefault "doc" none (asOption asText)
  let classes ← r.withDefault "classes" none (asOption Schema.definitionsOfJson)
  let enums ← r.withDefault "enums" none (asOption Schema.definitionsOfJson)
  pure ⟨doc, classes, enums⟩

/-- Reads the text of the file. -/
def ofText (s : String) : Except ReadFailure PackageFile := do
  let v ← shape.readText s
  ofJson v

end PackageFile

/-- Turns the failure to read a JSON text into one of the compiler. -/
def liftRead {α : Type} : Except ReadFailure α → Except CompileError α
  | .ok a => .ok a
  | .error failure => .error (.json failure)

namespace SchemaDirectory

/-- The labels among some names, in ascending order. -/
def labelsAmong (names : List String) : List VersionLabel :=
  VersionLabel.sort <| names.filterMap fun name =>
    match VersionLabel.parse name with
    | .ok label => some label
    | .error _ => none

/-- The names of the directories directly below a path. -/
def directoryNames (t : FileTree) (path : String) : List String :=
  (t.list path).filterMap fun e => if e.2 = .directory then some e.1 else none

/-- The versions of a schema in ascending order. -/
def versions (t : FileTree) (directory name : String) : Except CompileError (List VersionLabel) :=
  let path := Path.join directory name
  if t.isDirectory path then .ok (labelsAmong (directoryNames t path))
  else .error (.schemaNotFound name directory)

/-- The requested version among the available ones: the greatest, or the first of the same value. -/
def select (available : List VersionLabel) (requested : String) : Option VersionLabel :=
  if VersionLabel.isLatestAlias requested then VersionLabel.latest available
  else
    match VersionLabel.parse requested with
    | .ok wanted => available.find? fun label => label.version == wanted.version
    | .error _ => none

/-- The name of the package in a file, if it is one. -/
def packageName? (fileName : String) : Option String :=
  if fileName = OntologyFile.fileName then none
  else
    match Path.splitExtension fileName with
    | (stem, some "json") => some stem
    | _ => none

/-- Reads the package in a file. -/
def readPackage (t : FileTree) (directory fileName package : String) : Except CompileError Schema.Package := do
  let text ← t.readText (Path.join directory fileName)
  let file ← liftRead (PackageFile.ofText text)
  pure ⟨package, file.doc, file.classes, file.enums⟩

/-- Reads the packages in the named files, in order. -/
def readPackages (t : FileTree) (directory : String) :
    List (String × String) → Except CompileError (List Schema.Package)
  | [] => .ok []
  | (fileName, package) :: rest => do
    let p ← readPackage t directory fileName package
    let ps ← readPackages t directory rest
    pure (p :: ps)

/-- The files of packages in a directory with the names of their packages, in order of file names. -/
def packageFiles (t : FileTree) (directory : String) : List (String × String) :=
  (t.list directory).filterMap fun e =>
    match e.2 with
    | .directory => none
    | .file _ => (packageName? e.1).map fun package => (e.1, package)

/-- Reads the file about the ontology, if there is one. -/
def readOntologyFile (t : FileTree) (directory : String) : Except CompileError OntologyFile := do
  let path := Path.join directory OntologyFile.fileName
  if t.isFile path then
    let text ← t.readText path
    liftRead (OntologyFile.ofText text)
  else pure ⟨none, none, ""⟩

/-- Reads the schema in the directory of a version. -/
def readVersion (t : FileTree) (directory name label : String) : Except CompileError Schema := do
  let file ← readOntologyFile t directory
  let packages ← readPackages t directory (packageFiles t directory)
  pure ⟨file.name.getD name, file.version.getD label, file.doc, packages⟩

/-- Reads a requested version of a schema. -/
def load (t : FileTree) (directory name requested : String) : Except CompileError Schema := do
  let available ← versions t directory name
  match select available requested with
  | none => throw (.versionNotFound name requested)
  | some label => readVersion t (Path.join (Path.join directory name) label.label) name label.label

end SchemaDirectory

end OntologyCompiler
