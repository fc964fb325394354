import OntologyCompiler.Failure
import OntologyCompiler.Files.Path

/-!
# Emissions and writers

An emission is a piece of generated text and the place it goes to. A writer takes emissions one at a
time and may refuse any of them; what it has taken is its state.
-/

namespace OntologyCompiler

/-- A generated file. -/
structure Emission where
  content : String
  /-- The directory below the root of the output. -/
  directory : String
  filename : String
  deriving DecidableEq, Repr, Inhabited

/-- The path below the root of the output. -/
def Emission.path (e : Emission) : String := Path.join e.directory e.filename

/-- Where emissions go. A refused write may still have changed the state. -/
structure Writer (ω : Type) where
  write : Emission → ω → Except CompileError Unit × ω

namespace Writer

variable {ω : Type}

/-- Writes emissions in order up to the first refusal. -/
def writeAll (w : Writer ω) : List Emission → ω → Except CompileError Unit × ω
  | [], k => (.ok (), k)
  | e :: rest, k =>
    match w.write e k with
    | (.ok (), k) => w.writeAll rest k
    | (.error failure, k) => (.error failure, k)

/-- Keeps every emission in the order of arrival. -/
def memory : Writer (List Emission) where
  write e k := (.ok (), k ++ [e])

end Writer

end OntologyCompiler
