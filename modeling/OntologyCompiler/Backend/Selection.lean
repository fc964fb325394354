import OntologyCompiler.Backend.DecodingRules
import OntologyCompiler.Backend.InstanceChecks
import OntologyCompiler.Backend.PackageRoot

/-!
# Backends by language

The backends that a target language has, in the order in which they run. Python is the only one.
-/

namespace OntologyCompiler

/-- The backends for Python. -/
inductive Backend where
  | dataModel
  | decodingRules
  | instanceChecks
  | packageRoot
  deriving DecidableEq, Repr, Inhabited

namespace Backend

/-- All backends, the root module last. -/
def all : List Backend := [.dataModel, .decodingRules, .instanceChecks, .packageRoot]

/-- The generator of a backend. -/
def generator : Backend → Generator Draft
  | .dataModel => DataModel.generator
  | .decodingRules => DecodingRules.generator
  | .instanceChecks => InstanceChecks.generator
  | .packageRoot => PackageRoot.generator

/-- The backends of a language, named in any letter case. -/
def forLanguage (language : String) : Except CompileError (List Backend) :=
  let lower := Text.lowerAscii language
  if lower = "python" then .ok all else .error (.unsupportedLanguage lower)

/-- A backend with nothing gathered yet. -/
def fresh (b : Backend) : Generator Draft × Draft := (b.generator, Draft.empty)

end Backend

end OntologyCompiler
