import OntologyCompiler.Hash.Sha256
import OntologyCompiler.Ontology.Views

/-!
# Fingerprints

A text that lists what a build has derived, in an order that does not depend on the order of
declaration, and its hash.
-/

namespace OntologyCompiler.Ontology

/-- A property with what it points at and its cardinality. -/
def fingerprintProperty (o : Ontology) (p : Property) : String :=
  let target :=
    match p.type.entity? with
    | some entity => o.entityName entity
    | none => p.type.render
  "  prop " ++ p.name ++ " " ++ target ++ " " ++ p.cardinality.render

/-- The lines about a class: its base, imports, deferred imports and effective properties. -/
def fingerprintClass (o : Ontology) (c : Class) : List String :=
  let base := (c.base.map o.className).getD "-"
  ("class " ++ c.qualifiedName ++ " base " ++ base) ::
    c.imports.toList.map (fun e => "  import " ++ e.render) ++
    c.circularImports.toList.map (fun e => "  circular " ++ e.render) ++
    (o.allProperties c.id).map o.fingerprintProperty

/-- The lines about a package: its associations and external types. -/
def fingerprintPackage (o : Ontology) (p : Package) : List String :=
  ("package " ++ p.name) ::
    p.associatedPackages.toList.map (fun id => "  assoc " ++ o.packageName id) ++
    p.externalTypes.toList.map (fun e => "  external " ++ e.render)

/-- The lines that are hashed: classes by qualified name, then packages by name. -/
def fingerprintLines (o : Ontology) : List String :=
  (o.name ++ ":" ++ o.version) ::
    (sortOn Class.qualifiedName o.classes).flatMap o.fingerprintClass ++
    o.sortedPackages.flatMap o.fingerprintPackage

/-- The text that is hashed. -/
def fingerprintText (o : Ontology) : String := Text.closeLines o.fingerprintLines

/-- The hash of what a build has derived. -/
def fingerprint (o : Ontology) : String := Sha256.ofText o.fingerprintText

end OntologyCompiler.Ontology
