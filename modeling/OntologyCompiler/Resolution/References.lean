import OntologyCompiler.Ontology.Views

/-!
# References

Binding declared bases and type names to entities. A base chain that comes back to its start is cut at
the class with the least qualified name, which is visited first. A name that is found nowhere stays
unresolved and is reported.
-/

namespace OntologyCompiler.Ontology

/-- The class with a qualified name in an index. -/
def classNamed (index : OrderedMap String EntityId) (qualifiedName : String) : Option ClassId :=
  match index.get? qualifiedName with
  | some (.ofClass id) => some id
  | _ => none

/-- The class with its declared base looked up. -/
def bindBase (index : OrderedMap String EntityId) (c : Class) : Class :=
  { c with base := c.declaredBase.bind (classNamed index) }

/-- The finding about a declared base that is no class. -/
def danglingBase? (index : OrderedMap String EntityId) (c : Class) : Option Diagnostic :=
  c.declaredBase.bind fun declared =>
    match classNamed index declared with
    | some _ => none
    | none => some (.unresolvedBase c.qualifiedName declared)

/-- Binds the declared bases of all classes. -/
def bindBases (o : Ontology) : Ontology :=
  { o with
    classes := o.classes.map (bindBase o.index)
    diagnostics := o.diagnostics ++ o.classes.filterMap (danglingBase? o.index) }

/-- The way along bases from a class back to itself, if there is one. -/
def returnPath? (base : ClassId → Option ClassId) (start : ClassId) :
    Nat → List ClassId → Option ClassId → Option (List ClassId)
  | 0, _, _ => none
  | _ + 1, _, none => none
  | fuel + 1, seen, some next =>
    if next = start then some [next]
    else if next ∈ seen then none
    else (returnPath? base start fuel (next :: seen) (base next)).map (next :: ·)

/-- The ontology with one class changed. -/
def modifyClass (o : Ontology) (id : ClassId) (f : Class → Class) : Ontology :=
  { o with classes := o.classes.modify id.index f }

/-- The ontology with one more finding. -/
def report (o : Ontology) (d : Diagnostic) : Ontology := { o with diagnostics := o.diagnostics ++ [d] }

/-- Cuts the base of a class if its base chain comes back to it. -/
def cutCycleAt (o : Ontology) (id : ClassId) : Ontology :=
  match returnPath? o.base? id (o.classes.length + 1) [id] (o.base? id) with
  | none => o
  | some path =>
    (o.modifyClass id fun c => { c with base := none }).report
      (.inheritanceCycle (o.className id) (o.className id :: path.map o.className))

/-- The ids of all classes in order of their qualified names. -/
def classesByQualifiedName (o : Ontology) : List ClassId :=
  (sortOn Class.qualifiedName o.classes).map Class.id

/-- Cuts every inheritance cycle. -/
def cutInheritanceCycles (o : Ontology) : Ontology :=
  o.classesByQualifiedName.foldl cutCycleAt o

/-- The type bound to the entity with its name, if it still points nowhere. -/
def bindType (index : OrderedMap String EntityId) (t : ValueType) : ValueType :=
  if t.isResolved then t
  else
    match index.get? t.name with
    | some entity => { t with target := .resolved entity }
    | none => t

/-- The finding about a type that points nowhere and has no entity of its name. -/
def danglingType? (index : OrderedMap String EntityId) (owner : String) (t : ValueType) :
    Option Diagnostic :=
  if t.isResolved then none
  else if (index.get? t.name).isSome then none
  else some (.unresolvedType owner t.name)

/-- The finding about the type of a property. -/
def danglingProperty? (o : Ontology) (p : Property) : Option Diagnostic :=
  danglingType? o.index (o.className p.owner ++ "." ++ p.name) p.type

/-- The findings about the override types of a class. -/
def danglingDecodings (o : Ontology) (c : Class) : List Diagnostic :=
  c.decodings.filterMap fun d =>
    d.overrideType.bind (danglingType? o.index (c.qualifiedName ++ "." ++ d.property))

/-- Binds the types of all properties and decodings. -/
def bindTypes (o : Ontology) : Ontology :=
  { o with
    properties := o.properties.map fun p => { p with type := bindType o.index p.type }
    classes := o.classes.map fun c =>
      { c with decodings := c.decodings.map fun d =>
        { d with overrideType := d.overrideType.map (bindType o.index) } }
    diagnostics :=
      o.diagnostics ++ o.properties.filterMap o.danglingProperty? ++ o.classes.flatMap o.danglingDecodings }

end OntologyCompiler.Ontology
