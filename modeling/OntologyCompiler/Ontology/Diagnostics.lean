import OntologyCompiler.Text.Pieces

/-!
# Diagnostics

The soft findings of a build, in the order in which they were made. They do not stop a build; under
strict options the unresolved ones stop generation.
-/

namespace OntologyCompiler

/-- The kinds of findings. -/
inductive DiagnosticCode where
  | unresolvedBase
  | unresolvedType
  | inheritanceCycle
  | circularImport
  | packageCycle
  deriving DecidableEq, Repr, Inhabited

/-- How serious a finding is. -/
inductive Severity where
  | info
  | warning
  deriving DecidableEq, Repr, Inhabited

namespace DiagnosticCode

/-- The short code of a kind. -/
def text : DiagnosticCode → String
  | .unresolvedBase => "W001"
  | .unresolvedType => "W002"
  | .inheritanceCycle => "W003"
  | .circularImport => "I001"
  | .packageCycle => "I002"

/-- How serious a kind is. -/
def severity : DiagnosticCode → Severity
  | .unresolvedBase => .warning
  | .unresolvedType => .warning
  | .inheritanceCycle => .warning
  | .circularImport => .info
  | .packageCycle => .info

/-- Whether the kind marks a reference that could not be bound. -/
def isUnresolved : DiagnosticCode → Bool
  | .unresolvedBase => true
  | .unresolvedType => true
  | .inheritanceCycle => false
  | .circularImport => false
  | .packageCycle => false

end DiagnosticCode

/-- The word for a severity. -/
def Severity.text : Severity → String
  | .info => "info"
  | .warning => "warning"

/-- One finding about one entity. -/
structure Diagnostic where
  entity : String
  code : DiagnosticCode
  message : String
  deriving DecidableEq, Repr, Inhabited

namespace Diagnostic

/-- The declared base of a class is no class. -/
def unresolvedBase (className base : String) : Diagnostic :=
  ⟨className, .unresolvedBase, "base class '" ++ base ++ "' not found in ontology"⟩

/-- The type of a property or a decoding does not exist. -/
def unresolvedType (owner typeName : String) : Diagnostic :=
  ⟨owner, .unresolvedType, "type '" ++ typeName ++ "' not found in ontology"⟩

/-- The base chain of a class led back to it. -/
def inheritanceCycle (className : String) (chain : List String) : Diagnostic :=
  ⟨className, .inheritanceCycle, "inheritance cycle " ++ Text.join " -> " chain ++ "; base removed"⟩

/-- One side of a mutual import was put off. -/
def circularImport (className target : String) : Diagnostic :=
  ⟨className, .circularImport, "import of '" ++ target ++ "' deferred to break a cycle"⟩

/-- Packages that need each other. -/
def packageCycle (members : List String) : Diagnostic :=
  ⟨members.headD "", .packageCycle, "packages depend on each other: " ++ Text.join ", " members⟩

/-- How serious the finding is. -/
def severity (d : Diagnostic) : Severity := d.code.severity

/-- The finding as a line. -/
def render (d : Diagnostic) : String :=
  "[" ++ d.code.text ++ "] " ++ d.severity.text ++ ": " ++ d.message ++ " (" ++ d.entity ++ ")"

end Diagnostic

/-- The findings of a build. -/
abbrev Diagnostics := List Diagnostic

namespace Diagnostics

/-- The warnings among the findings. -/
def warnings (ds : Diagnostics) : Diagnostics := ds.filter fun d => d.severity == .warning

/-- The findings of one kind. -/
def withCode (ds : Diagnostics) (code : DiagnosticCode) : Diagnostics := ds.filter fun d => d.code == code

/-- The number of references that could not be bound. -/
def unresolvedCount (ds : Diagnostics) : Nat := ds.countP fun d => d.code.isUnresolved

/-- All findings as lines, with a count after them unless there are none. -/
def render (ds : Diagnostics) : String :=
  if ds.isEmpty then ""
  else
    Text.closeLines (ds.map Diagnostic.render) ++ "\n" ++ ds.warnings.length.repr ++ " warning(s), " ++
      ds.unresolvedCount.repr ++ " unresolved reference(s)\n"

end Diagnostics

end OntologyCompiler
