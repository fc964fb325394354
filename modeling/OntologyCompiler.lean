import OntologyCompiler.Main
import OntologyCompiler.Ontology.Codec
import OntologyCompiler.Ontology.Fingerprint
import OntologyCompiler.Proofs.Declarations.Bodies
import OntologyCompiler.Proofs.Declarations.Gate
import OntologyCompiler.Proofs.Frame
import OntologyCompiler.Proofs.Arena
import OntologyCompiler.Proofs.Inheritance.Cuts
import OntologyCompiler.Proofs.Imports.Pairs
import OntologyCompiler.Proofs.Imports.Deferral
import OntologyCompiler.Proofs.Types
import OntologyCompiler.Proofs.Imports.Broken
import OntologyCompiler.Proofs.Loading.Names
import OntologyCompiler.Proofs.Loading.Trace
import OntologyCompiler.Proofs.Loading.References
import OntologyCompiler.Proofs.Components
import OntologyCompiler.Proofs.Modules.Gathering
import OntologyCompiler.Proofs.Loading.Modules
import OntologyCompiler.Proofs.PackageOrder
import OntologyCompiler.Proofs.Loading.Siblings
import OntologyCompiler.Proofs.Loading.Bases
import OntologyCompiler.Proofs.Generation.Engine
import OntologyCompiler.Proofs.Generation.Drafts
import OntologyCompiler.Proofs.Declarations.Types
import OntologyCompiler.Proofs.Generation.Closure
import OntologyCompiler.Proofs.Ordered
import OntologyCompiler.Proofs.Files.Commutation
import OntologyCompiler.Proofs.Generation.Parallel
import OntologyCompiler.Proofs.Generation.Concurrency
import OntologyCompiler.Proofs.Distinct
import OntologyCompiler.Proofs.Groups
import OntologyCompiler.Proofs.Named
import OntologyCompiler.Proofs.Renaming.Moved
import OntologyCompiler.Proofs.Renaming.Basic
import OntologyCompiler.Proofs.Renaming.Passes
import OntologyCompiler.Proofs.Renaming.Packages
import OntologyCompiler.Proofs.Renaming.Views
import OntologyCompiler.Proofs.Renaming.Backends
import OntologyCompiler.Proofs.Declarations.Proper
import OntologyCompiler.Proofs.Renaming.Declared
import OntologyCompiler.Proofs.Renaming.Reading
import OntologyCompiler.Proofs.Renaming.Independence
import OntologyCompiler.Proofs.References.Wiring
import OntologyCompiler.Proofs.References.Binding
import OntologyCompiler.Proofs.References.WellFormed
import OntologyCompiler.Proofs.References.Dangling
import OntologyCompiler.Proofs.Packages.Order
import OntologyCompiler.Proofs.Packages.Descent
import OntologyCompiler.Proofs.Packages.Ties
import OntologyCompiler.Proofs.Declarations.Faults
import OntologyCompiler.Proofs.References.Written
import OntologyCompiler.Proofs.Fingerprint.Lines
import OntologyCompiler.Proofs.Fingerprint.Associations
import OntologyCompiler.Proofs.Fingerprint.Blocks
import OntologyCompiler.Proofs.Fingerprint.Legible
import OntologyCompiler.Proofs.Fingerprint.Reading
import OntologyCompiler.Proofs.Fingerprint.Derived
import OntologyCompiler.Proofs.Merging
import OntologyCompiler.Proofs.Declarations.Grammar
import OntologyCompiler.Proofs.Declarations.Acceptance
import OntologyCompiler.Proofs.Inheritance.Lineage
import OntologyCompiler.Proofs.Inheritance.Overrides
import OntologyCompiler.Proofs.Generation.Fresh
import OntologyCompiler.Proofs.Generation.Refusal
import OntologyCompiler.Proofs.Sorting
import OntologyCompiler.Proofs.Modules.Layout
import OntologyCompiler.Proofs.Modules.Sheets
import OntologyCompiler.Proofs.Modules.Pages
import OntologyCompiler.Proofs.Modules.Functions
import OntologyCompiler.Proofs.Modules.Placement
import OntologyCompiler.Proofs.Modules.Dependencies
import OntologyCompiler.Proofs.Modules.Lines
import OntologyCompiler.Proofs.Modules.Docstrings
import OntologyCompiler.Proofs.Modules.ClassNames
import OntologyCompiler.Proofs.Modules.Attributes
import OntologyCompiler.Proofs.Modules.Checks
import OntologyCompiler.Proofs.Literals.Numbers
import OntologyCompiler.Proofs.Literals.Visible
import OntologyCompiler.Proofs.Literals.Reading
import OntologyCompiler.Proofs.Names.Constants
import OntologyCompiler.Proofs.Modules.Members
import OntologyCompiler.Proofs.Declarations.TypeTexts
import OntologyCompiler.Proofs.Declarations.Printing
import OntologyCompiler.Proofs.Versions.Order
import OntologyCompiler.Proofs.Versions.Precedence
import OntologyCompiler.Proofs.Versions.Selection
import OntologyCompiler.Proofs.Files.Containment
import OntologyCompiler.Proofs.Generation.Locations
import OntologyCompiler.Proofs.Inheritance.Loops
import OntologyCompiler.Proofs.Codec.Lossless
