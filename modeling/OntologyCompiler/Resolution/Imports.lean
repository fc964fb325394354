import OntologyCompiler.Resolution.References

/-!
# Imports

What the module of a class needs: its base and the types of its own properties, resolved or not, other
than itself. Of two classes that need each other one side is put off: classes are visited by qualified
name, and a class whose property points at another one keeps its import.
-/

namespace OntologyCompiler.Ontology

/-- The edge to the base of a class. -/
def baseEdge? (o : Ontology) (c : Class) : Option ImportEdge :=
  (c.base.bind o.class?).map o.edgeTo

/-- The edge named by a type. -/
def typeEdge? (t : ValueType) : Option ImportEdge :=
  t.qualifiedParts.map fun parts => ⟨parts.1, parts.2⟩

/-- The edges named by the own properties of a class. -/
def propertyEdges (o : Ontology) (c : Class) : List ImportEdge :=
  (c.properties.filterMap o.property?).filterMap fun p => typeEdge? p.type

/-- Everything that a class refers to, itself excepted. -/
def importsOf (o : Ontology) (c : Class) : OrderedSet ImportEdge :=
  (OrderedSet.ofList ((o.baseEdge? c).toList ++ o.propertyEdges c)).erase (o.edgeTo c)

/-- Computes the imports of all classes. -/
def computeImports (o : Ontology) : Ontology :=
  { o with classes := o.classes.map fun c => { c with imports := o.importsOf c, circularImports := ∅ } }

/-- The other classes that the own properties of a class point at, in order of property names. -/
def classTargets (o : Ontology) (id : ClassId) : List ClassId :=
  ((o.ownProperties id).filterMap fun p => p.type.classId?).filter fun d => d ≠ id

/-- All pairs of a class and another one that its properties point at, in visiting order. -/
def targetPairs (o : Ontology) : List (ClassId × ClassId) :=
  o.classesByQualifiedName.flatMap fun c => (o.classTargets c).map fun d => (c, d)

/-- Puts off the import from `d` back to `c` if both import each other. -/
def deferImport (o : Ontology) (pair : ClassId × ClassId) : Ontology :=
  match o.class? pair.1, o.class? pair.2 with
  | some c, some d =>
    let toC := o.edgeTo c
    if o.edgeTo d ∈ c.imports ∧ toC ∈ d.imports then
      (o.modifyClass pair.2 fun d =>
          { d with
            imports := d.imports.erase toC
            circularImports := d.circularImports.insert toC }).report
        (.circularImport d.qualifiedName toC.render)
    else o
  | _, _ => o

/-- Breaks every mutual import. -/
def breakCircularImports (o : Ontology) : Ontology := o.targetPairs.foldl deferImport o

end OntologyCompiler.Ontology
