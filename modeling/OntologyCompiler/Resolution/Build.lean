import OntologyCompiler.Resolution.Assembly
import OntologyCompiler.Resolution.Imports
import OntologyCompiler.Resolution.Packages

/-!
# Building an ontology

A schema is read into declarations, which may fail, and then resolved in passes over the whole
ontology, which never fail: dangling references and cycles become findings.
-/

namespace OntologyCompiler

/-- The passes from an assembled ontology to a resolved one. -/
def Ontology.resolve (o : Ontology) : Ontology :=
  o.bindBases.cutInheritanceCycles.bindTypes.computeImports.breakCircularImports.computeAssociations
    |>.computeExternalTypes
    |>.reportPackageCycles

/-- Builds the ontology of a schema. -/
def Schema.build (s : Schema) : Except CompileError Ontology :=
  s.declarations.map fun ps => (Ontology.assemble s.name s.version s.doc ps).resolve

end OntologyCompiler
