import OntologyCompiler.Backend.Selection
import OntologyCompiler.CommandLine.Flag
import OntologyCompiler.Resolution.Build
import OntologyCompiler.Schema.Directory
import OntologyCompiler.Schema.Validation
import OntologyCompiler.Settings.Configuration

/-!
# The programs

Two programs read a schema from its directory: one checks it, the other generates code from it. A
program is a plan: what it prints, and perhaps emissions to be written before it prints the rest.
-/

namespace OntologyCompiler

/-- How a program ended. -/
structure Outcome where
  code : Nat
  output : String
  errors : String
  deriving DecidableEq, Repr, Inhabited

/-- What a program does. -/
inductive Plan where
  | finished (outcome : Outcome)
  /-- Emissions go below a root directory; the closing text follows the output if all could be written. -/
  | emitting (output root : String) (emissions : List Emission) (closing : String)
  deriving DecidableEq, Inhabited

/-- What a program finds around it. -/
structure Surroundings where
  tree : FileTree
  environment : List EnvironmentVariable
  /-- The place of the configuration file of the user. -/
  userFile : Option String

/-- The two programs. -/
inductive Program where
  | generate
  | validate
  deriving DecidableEq, Repr, Inhabited

/-- The arguments of a program. -/
structure Invocation where
  schema : String
  version : String
  language : Option String
  output : Option String
  schemas : Option String
  config : Option String
  strict : Bool
  resolve : Bool
  deriving DecidableEq, Repr, Inhabited

namespace Outcome

/-- The arguments could not be understood. -/
def misused : Outcome := ⟨2, "", ""⟩

/-- A failure after some output; the context stands before the message. -/
def failed (output context : String) (failure : CompileError) : Outcome :=
  ⟨1, output, "Error: " ++ context ++ failure.message ++ "\n"⟩

end Outcome

namespace Invocation

/-- The flags of a program. -/
def flags : Program → List Flag
  | .generate => [
    ⟨"schema", some 's', .text⟩, ⟨"version", some 'v', .text⟩, ⟨"language", some 'l', .text⟩,
    ⟨"output", some 'o', .path⟩, ⟨"schemas", none, .path⟩, ⟨"config", none, .path⟩, ⟨"strict", none, .switch⟩]
  | .validate => [
    ⟨"schema", some 's', .text⟩, ⟨"version", some 'v', .text⟩, ⟨"schemas", none, .path⟩,
    ⟨"config", none, .path⟩, ⟨"resolve", none, .switch⟩]

/-- Reads the arguments of a program. The schema must be named. -/
def read? (program : Program) (arguments : List String) : Option Invocation := do
  let found ← Flag.read? (flags program) arguments
  let schema ← found.lookup "schema"
  pure {
    schema
    version := (found.lookup "version").getD VersionLabel.latestWord
    language := found.lookup "language"
    output := found.lookup "output"
    schemas := found.lookup "schemas"
    config := found.lookup "config"
    strict := (found.lookup "strict").isSome
    resolve := (found.lookup "resolve").isSome }

/-- Loads the configuration of an invocation. -/
def configuration (i : Invocation) (around : Surroundings) : Except CompileError Configuration :=
  Configuration.load around.tree around.environment around.userFile i.config

/-- The directory of the schemas. -/
def schemaDirectory (i : Invocation) (c : Configuration) : String := i.schemas.getD c.schemaDirectory

/-- The options of a run. -/
def options (i : Invocation) (c : Configuration) : GenerationOptions where
  language := i.language.getD c.language
  outputDirectory := i.output.getD c.outputDirectory
  strictness := if i.strict then .strict else c.strictness

end Invocation

namespace Program

/-- The problems of a schema as lines, with their count. -/
def problemText (problems : List Problem) : String :=
  Text.closeLines (problems.map Problem.message ++ ["❌ " ++ problems.length.repr ++ " validation error(s)"])

/-- Generates code from a schema that has been read. -/
def generateFrom (s : Schema) (options : GenerationOptions) (output : String) : Plan :=
  match s.build with
  | .error failure => .finished (.failed output "" failure)
  | .ok o =>
    let output := output ++ Diagnostics.render o.diagnostics
    let emitted := do
      let backends ← Backend.forLanguage options.language
      let (reports, emissions) := Generator.executeAll o options Writer.memory (backends.map Backend.fresh) []
      reports.map fun reports => (reports, emissions)
    match emitted with
    | .error failure => .finished (.failed output "" failure)
    | .ok (reports, emissions) =>
      let lines := reports.map fun r => "  ✅ " ++ r.render
      let last := "✅ Generated " ++ o.name ++ " v" ++ o.version ++ " (" ++ options.language ++ ") into " ++
        options.outputDirectory
      .emitting output options.outputDirectory emissions (Text.closeLines (lines ++ [last]))

/-- The plan of the generating program. -/
def generatePlan (i : Invocation) (around : Surroundings) : Plan :=
  match i.configuration around with
  | .error failure => .finished (.failed "" "loading configuration: " failure)
  | .ok c =>
    let directory := i.schemaDirectory c
    let output := "🔍 Loading " ++ i.schema ++ " " ++ i.version ++ " from " ++ directory ++ "\n"
    match SchemaDirectory.load around.tree directory i.schema i.version with
    | .error failure => .finished (.failed output "" failure)
    | .ok s =>
      let problems := s.problems
      if problems.isEmpty then generateFrom s (i.options c) output
      else .finished ⟨1, output ++ problemText problems, ""⟩

/-- The outcome of resolving the references of a schema that has no problems. -/
def resolveOutcome (s : Schema) (output : String) : Outcome :=
  match s.build with
  | .error failure => .failed output "" failure
  | .ok o =>
    if o.diagnostics.isEmpty then ⟨0, output ++ "✅ All references resolved\n", ""⟩
    else ⟨0, output ++ Diagnostics.render o.diagnostics, ""⟩

/-- The outcome of the checking program. -/
def validateOutcome (i : Invocation) (around : Surroundings) : Outcome :=
  match i.configuration around with
  | .error failure => .failed "" "" failure
  | .ok c =>
    let output := "🔍 Validating " ++ i.schema ++ " " ++ i.version ++ "\n"
    match SchemaDirectory.load around.tree (i.schemaDirectory c) i.schema i.version with
    | .error failure => .failed output "" failure
    | .ok s =>
      let problems := s.problems
      if problems.isEmpty then
        let output := output ++ "✅ " ++ s.name ++ " v" ++ s.version ++ ": " ++ s.packages.length.repr ++
          " package(s), " ++ s.definitionCount.repr ++ " type(s)\n"
        if i.resolve then resolveOutcome s output else ⟨0, output, ""⟩
      else ⟨1, output ++ problemText problems, ""⟩

/-- The plan of a program for an invocation. -/
def plan (program : Program) (i : Invocation) (around : Surroundings) : Plan :=
  match program with
  | .generate => generatePlan i around
  | .validate => .finished (validateOutcome i around)

end Program

namespace Plan

/-- Carries out a plan on a file tree. -/
def carryOut : Plan → FileTree → Outcome × FileTree
  | .finished outcome, t => (outcome, t)
  | .emitting output root emissions closing, t =>
    match (Writer.files root).writeAll emissions t with
    | (.ok (), t) => (⟨0, output ++ closing, ""⟩, t)
    | (.error failure, t) => (.failed output "" failure, t)

end Plan

/-- Runs a program with its arguments on a file tree. -/
def Program.run (program : Program) (arguments : List String) (around : Surroundings) : Outcome × FileTree :=
  match Invocation.read? program arguments with
  | none => (.misused, around.tree)
  | some i => (program.plan i around).carryOut around.tree

end OntologyCompiler
