import OntologyCompiler.Files.Tree
import OntologyCompiler.Generation.Engine
import OntologyCompiler.Json.Decode
import OntologyCompiler.Settings.Environment
import OntologyCompiler.Settings.Layer
import OntologyCompiler.Toml.Document

/-!
# Configuration

Where schemas lie and how code is generated. A configuration is put together from layers: files in the
working directory, the file of the user, a file asked for, and the environment, later ones winning key
by key. Only the merged value of a key has to be of the right kind.
-/

namespace OntologyCompiler

/-- A configuration. -/
structure Configuration where
  schemaDirectory : String
  outputDirectory : String
  language : String
  strictness : Strictness
  deriving DecidableEq, Repr, Inhabited

namespace Configuration

/-- The configuration when nothing is set. -/
def standard : Configuration := ⟨"schemas", "generated", "python", .lenient⟩

/-- The options of a run under the configuration. -/
def options (c : Configuration) : GenerationOptions := ⟨c.language, c.outputDirectory, c.strictness⟩

/-- The fields of a section: those of a table, or the items of a list in the order of the names. -/
def section? (names : List String) : Setting → Option SettingFields
  | .table fields => some fields
  | .list items => some (names.zip items)
  | _ => none

/-- The fields of a section that need not be there. -/
def sectionFields? (fields : SettingFields) (name : String) (names : List String) : Option SettingFields :=
  match fields.lookup name with
  | some s => section? names s
  | none => some []

/-- A field with a value to take if it is missing. -/
def field? {α : Type} (fields : SettingFields) (name : String) (fallback : α) (read : Setting → Option α) :
    Option α :=
  match fields.lookup name with
  | some s => read s
  | none => some fallback

/-- The strictness of a text in any letter case, or of the only field of a table. -/
def strictness? : Setting → Option Strictness
  | .text word => (Strictness.parse word).toOption
  | .table [(word, _)] => (Strictness.parse word).toOption
  | _ => none

/-- The configuration of merged layers. -/
def ofSettings? (fields : SettingFields) : Option Configuration := do
  let schemas ← sectionFields? fields "schemas" ["dir"]
  let generation ← sectionFields? fields "generation" ["output_dir", "language", "strictness"]
  let schemaDirectory ← field? schemas "dir" standard.schemaDirectory Setting.plainText?
  let outputDirectory ← field? generation "output_dir" standard.outputDirectory Setting.plainText?
  let language ← field? generation "language" standard.language Setting.plainText?
  let strictness ← field? generation "strictness" standard.strictness strictness?
  pure ⟨schemaDirectory, outputDirectory, language, strictness⟩

/-- The files of the working directory that are layers if they are there. -/
def standardFiles : List String := ["ontogen.toml", ".ontogen.toml", "config/ontogen.toml"]

/-- The places where a file that a path names may stand: at the path, or with the ending `.toml` added. -/
def places (t : FileTree) (path : String) : List String :=
  let whole := Path.join t.workingPath path
  whole :: (Path.extendName? whole ".toml").toList

/-- The file that a path names: the one at the path, which must end in `.toml`, or else the one whose name
has this ending added. -/
def layerFile? (t : FileTree) (path : String) : Option String :=
  let whole := Path.join t.workingPath path
  if t.isFile whole then
    if (Path.fileName? whole).bind Path.extension? = some "toml" then some whole else none
  else (Path.extendName? whole ".toml").filter t.isFile

/-- All places that loading looks at. -/
def allPlaces (t : FileTree) (userFile explicit : Option String) : List String :=
  (standardFiles ++ userFile.toList ++ explicit.toList).flatMap (places t)

/-- The text of the layer that a path names, if its file is there and holds text. -/
def layerText? (t : FileTree) (path : String) : Option String :=
  (layerFile? t path).bind fun file => (t.contents? file).bind FileContents.text?

/-- The layer of a file. One that is not required counts as empty if its text cannot be had. -/
def fileLayer (t : FileTree) (required : Bool) (path : String) : Except CompileError SettingFields :=
  match layerText? t path with
  | none => if required then .error .settings else .ok []
  | some text =>
    match Toml.read? text with
    | some fields => .ok fields
    | none => .error .settings

/-- The layers of files, in order. -/
def fileLayers (t : FileTree) (required : Bool) : List String → Except CompileError (List SettingFields)
  | [] => .ok []
  | path :: rest => do
    let layer ← fileLayer t required path
    let layers ← fileLayers t required rest
    pure (layer :: layers)

/-- The file of the user: below the directory for configuration files if an absolute one is named, or else
below the home directory. -/
def userFile? (environment : List EnvironmentVariable) : Option String :=
  let named := (EnvironmentVariable.value? environment "XDG_CONFIG_HOME").filter fun d => d.toList.head? = some '/'
  let home := (EnvironmentVariable.value? environment "HOME").filter (· ≠ "")
  (named.or (home.map fun d => Path.join d ".config")).map fun d => Path.join d "ontogen/ontogen.toml"

/-- Loads the configuration, given the environment, the file of the user and the one asked for. -/
def load (t : FileTree) (environment : List EnvironmentVariable) (userFile explicit : Option String) :
    Except CompileError Configuration := do
  let user := userFile.filter fun path => (t.at? path).isSome
  let found ← fileLayers t false (standardFiles ++ user.toList)
  let asked ← fileLayers t true explicit.toList
  let layers := found ++ asked ++ [EnvironmentVariable.layer environment]
  match ofSettings? (layers.foldl Setting.overlay []) with
  | some c => pure c
  | none => throw .settings

/-- The configuration as a TOML text. -/
def render (c : Configuration) : String :=
  Text.closeLines [
    "[schemas]",
    "dir = " ++ Toml.quote c.schemaDirectory,
    "",
    "[generation]",
    "output_dir = " ++ Toml.quote c.outputDirectory,
    "language = " ++ Toml.quote c.language,
    "strictness = " ++ Toml.quote c.strictness.text]

/-- Saves the configuration as a file. -/
def save (c : Configuration) (t : FileTree) (path : String) : Except CompileError FileTree :=
  t.writeFile path (.text c.render)

open Json

/-- Writes the configuration. -/
def toJson (c : Configuration) : Json :=
  .object [
    ("generation", .object [
      ("language", .text c.language),
      ("output_dir", .text c.outputDirectory),
      ("strictness", .text c.strictness.text)]),
    ("schemas", .object [("dir", .text c.schemaDirectory)])]

/-- Reads a strictness by its exact name. -/
def strictnessOfJson (v : Json) : Decoded Strictness := do
  let (name, carried) ← asVariant v
  match Strictness.ofWord? name with
  | some s => bare s carried
  | none => throw .mistyped

/-- Reads the directory of the schemas. -/
def schemasOfJson (v : Json) : Decoded String := do
  let r ← asRecord ["dir"] v
  r.withDefault "dir" standard.schemaDirectory asText

/-- Reads the options of a run. -/
def generationOfJson (v : Json) : Decoded GenerationOptions := do
  let r ← asRecord ["output_dir", "language", "strictness"] v
  let outputDirectory ← r.withDefault "output_dir" standard.outputDirectory asText
  let language ← r.withDefault "language" standard.language asText
  let strictness ← r.withDefault "strictness" standard.strictness strictnessOfJson
  pure ⟨language, outputDirectory, strictness⟩

/-- Reads a configuration. -/
def ofJson (v : Json) : Decoded Configuration := do
  let r ← asRecord ["schemas", "generation"] v
  let schemaDirectory ← r.withDefault "schemas" standard.schemaDirectory schemasOfJson
  let o ← r.withDefault "generation" standard.options generationOfJson
  pure ⟨schemaDirectory, o.outputDirectory, o.language, o.strictness⟩

end Configuration

end OntologyCompiler
