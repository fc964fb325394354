import OntologyCompiler.Generation.Emission
import OntologyCompiler.Ontology.Views

/-!
# Generation

The engine walks an ontology in a fixed order, offers every stop to a generator, and passes what the
generator emits on to a writer. Under strict options it refuses an ontology with unresolved
references before the first stop.
-/

namespace OntologyCompiler

/-- What to do about references that could not be bound. -/
inductive Strictness where
  | lenient
  | strict
  deriving DecidableEq, Repr, Inhabited

namespace Strictness

/-- The word for a strictness. -/
def text : Strictness → String
  | .lenient => "lenient"
  | .strict => "strict"

/-- The strictness of a word in lower case. -/
def ofWord? (word : String) : Option Strictness :=
  if word = "lenient" then some .lenient else if word = "strict" then some .strict else none

/-- The strictness of a word in any letter case; otherwise the word in lower case. -/
def parse (word : String) : Except String Strictness :=
  let lower := Text.lowerAscii word
  match ofWord? lower with
  | some s => .ok s
  | none => .error lower

/-- The complaint about a word in lower case that is no strictness. -/
def unknownMessage (lower : String) : String := "unknown strictness '" ++ lower ++ "'"

end Strictness

/-- The options of a run. -/
structure GenerationOptions where
  language : String
  outputDirectory : String
  strictness : Strictness
  deriving DecidableEq, Repr, Inhabited

/-- A stop of the walk. -/
inductive Visit where
  | start
  | ontology
  | package (p : Package)
  | ofClass (c : Class)
  | ofEnum (e : Enumeration)
  | finish
  deriving Inhabited

namespace Visit

/-- The package at a stop: the package itself, or the owner of the class or enumeration. -/
def package? (o : Ontology) : Visit → Option Package
  | .package p => some p
  | .ofClass c => o.package? c.package
  | .ofEnum e => o.package? e.package
  | _ => none

/-- The class at a stop. -/
def class? : Visit → Option Class
  | .ofClass c => some c
  | _ => none

/-- The enumeration at a stop. -/
def enum? : Visit → Option Enumeration
  | .ofEnum e => some e
  | _ => none

end Visit

/-- The stops of a walk: start, the ontology, packages, classes and enumerations in sorted order, end. -/
def Ontology.visits (o : Ontology) : List Visit :=
  [.start, .ontology] ++ o.sortedPackages.map .package ++ o.sortedClasses.map .ofClass ++
    o.sortedEnums.map .ofEnum ++ [.finish]

/-- A backend: it answers a stop with emissions and a new state. -/
structure Generator (σ : Type) where
  name : String
  /-- Whether there is anything to do for an ontology. -/
  isRequired : Ontology → Bool
  visit : Ontology → GenerationOptions → Visit → σ → List Emission × σ

/-- How many stops of each kind a run made. -/
structure VisitCounts where
  start : Nat
  ontology : Nat
  packages : Nat
  classes : Nat
  enums : Nat
  finish : Nat
  deriving DecidableEq, Repr, Inhabited

/-- The counts with one more stop. -/
def VisitCounts.add (n : VisitCounts) : Visit → VisitCounts
  | .start => { n with start := n.start + 1 }
  | .ontology => { n with ontology := n.ontology + 1 }
  | .package _ => { n with packages := n.packages + 1 }
  | .ofClass _ => { n with classes := n.classes + 1 }
  | .ofEnum _ => { n with enums := n.enums + 1 }
  | .finish => { n with finish := n.finish + 1 }

/-- The summary of a run. -/
structure Report where
  backend : String
  skipped : Bool
  visits : VisitCounts
  /-- The paths written, in order. -/
  files : List String
  deriving DecidableEq, Repr, Inhabited

namespace Report

/-- The summary before the first stop. -/
def new (backend : String) : Report := ⟨backend, false, ⟨0, 0, 0, 0, 0, 0⟩, []⟩

/-- The summary after one more stop whose emissions have been written. -/
def add (r : Report) (v : Visit) (es : List Emission) : Report :=
  { r with visits := r.visits.add v, files := r.files ++ es.map Emission.path }

/-- The summary as a line. -/
def render (r : Report) : String :=
  if r.skipped then r.backend ++ ": skipped"
  else
    r.backend ++ ": " ++ r.files.length.repr ++ " file(s) from " ++ r.visits.packages.repr ++
      " package(s), " ++ r.visits.classes.repr ++ " class(es), " ++ r.visits.enums.repr ++ " enum(s)"

end Report

/-- What a run leaves behind. -/
structure Run (σ ω : Type) where
  outcome : Except CompileError Report
  state : σ
  sink : ω

namespace Generator

variable {σ ω : Type}

/-- Makes stops in order until a write is refused. -/
def walk (g : Generator σ) (o : Ontology) (options : GenerationOptions) (w : Writer ω) :
    List Visit → Report → σ → ω → Run σ ω
  | [], r, s, k => ⟨.ok r, s, k⟩
  | v :: rest, r, s, k =>
    let answer := g.visit o options v s
    match w.writeAll answer.1 k with
    | (.ok (), k) => g.walk o options w rest (r.add v answer.1) answer.2 k
    | (.error failure, k) => ⟨.error failure, answer.2, k⟩

/-- Runs a backend over an ontology. -/
def execute (g : Generator σ) (o : Ontology) (options : GenerationOptions) (w : Writer ω) (s : σ) (k : ω) :
    Run σ ω :=
  let unresolved := o.diagnostics.unresolvedCount
  if options.strictness = .strict ∧ 0 < unresolved then ⟨.error (.unresolvedReferences unresolved), s, k⟩
  else if !g.isRequired o then ⟨.ok { Report.new g.name with skipped := true }, s, k⟩
  else g.walk o options w o.visits (Report.new g.name) s k

/-- Runs backends one after another on one writer, up to the first failure. -/
def executeAll (o : Ontology) (options : GenerationOptions) (w : Writer ω) :
    List (Generator σ × σ) → ω → Except CompileError (List Report) × ω
  | [], k => (.ok [], k)
  | (g, s) :: rest, k =>
    let run := g.execute o options w s k
    match run.outcome with
    | .error failure => (.error failure, run.sink)
    | .ok report =>
      let others := executeAll o options w rest run.sink
      (others.1.map fun reports => report :: reports, others.2)

end Generator

end OntologyCompiler
