/-!
# Cardinalities

How often a property occurs: at least `min` times, and once or any number of times at most. Schemas
write one of four encodings.
-/

namespace OntologyCompiler

/-- The upper bound of a cardinality. -/
inductive MaxOccurs where
  | one
  | many
  deriving DecidableEq, Repr, Inhabited

/-- How often a property occurs. -/
structure Cardinality where
  min : Nat
  max : MaxOccurs
  deriving DecidableEq, Repr, Inhabited

namespace Cardinality

/-- The encodings that a schema may use. -/
def encodings : List String := ["0.1", "0.N", "1.1", "1.N"]

/-- The cardinality of an encoding. -/
def parse? (s : String) : Option Cardinality :=
  if s = "0.1" then some ⟨0, .one⟩
  else if s = "0.N" then some ⟨0, .many⟩
  else if s = "1.1" then some ⟨1, .one⟩
  else if s = "1.N" then some ⟨1, .many⟩
  else none

/-- The bounds with a dot between them. -/
def render (c : Cardinality) : String :=
  c.min.repr ++ "." ++ (match c.max with | .one => "1" | .many => "N")

/-- Whether a value must be there. -/
def isRequired (c : Cardinality) : Bool := c.min != 0

/-- Whether there may be several values. -/
def isIterative (c : Cardinality) : Bool := c.max == .many

/-- The encodings are exactly the texts that stand for a cardinality. -/
theorem parse?_isSome_iff {s : String} : (parse? s).isSome ↔ s ∈ encodings := by
  unfold parse? encodings
  split
  · simp_all
  · split
    · simp_all
    · split
      · simp_all
      · split <;> simp_all

end Cardinality

end OntologyCompiler
