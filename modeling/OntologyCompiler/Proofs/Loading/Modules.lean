import OntologyCompiler.Proofs.Modules.Gathering

/-!
# The data model modules of an ontology

The modules that a run has gathered before its last stop are the modules that it emits. There is one for
every package, and its import sets are described by the classes of the package: the packages of bases are
eager, an edge to another package is put off if that package derives from this one, and deferred edges
are put off always.
-/

namespace OntologyCompiler

/-- A writer that keeps everything takes all emissions. -/
theorem Writer.writeAll_memory (es k : List Emission) : Writer.memory.writeAll es k = (.ok (), k ++ es) := by
  induction es generalizing k with
  | nil => simp [writeAll]
  | cons e es ih =>
    rw [writeAll]
    change memory.writeAll es (k ++ [e]) = _
    rw [ih, List.append_assoc, List.singleton_append]

/-- A module without its text: its import sets. -/
def CodeModule.bare (m : CodeModule) : CodeModule := { m with header := [], blocks := [] }

namespace DataModel

variable {o : Ontology} {p : Package} {c : Class} {e : ImportEdge} {ms : CodeModules} {x : String}

/-- An edge leads from a package to the module of another one, which derives from the package or not. -/
def LeadsTo (o : Ontology) (package : String) (derives : Bool) (e : ImportEdge) (x : String) : Prop :=
  e.package ≠ package ∧ derivesFrom o e.package package = derives ∧ x = moduleOf e.package

section Edges

variable {package : String} {m : CodeModule}

/-- An edge to a package that does not derive from this one is imported. -/
theorem mem_imports_addImport :
    x ∈ (addImport o package m e).imports ↔ x ∈ m.imports ∨ LeadsTo o package false e x := by
  unfold addImport LeadsTo
  by_cases hown : e.package = package
  · simp [hown]
  · cases hderives : derivesFrom o e.package package
    · simp [hown, OrderedSet.mem_insert, or_comm]
    · simp [hown]

/-- An edge to a package that derives from this one is put off. -/
theorem mem_deferred_addImport :
    x ∈ (addImport o package m e).deferred ↔ x ∈ m.deferred ∨ LeadsTo o package true e x := by
  unfold addImport LeadsTo
  by_cases hown : e.package = package
  · simp [hown]
  · cases hderives : derivesFrom o e.package package
    · simp [hown]
    · simp [hown, OrderedSet.mem_insert, or_comm]

/-- A deferred edge to another package is put off. -/
theorem mem_deferred_addDeferred :
    x ∈ (addDeferred package m e).deferred ↔ x ∈ m.deferred ∨ e.package ≠ package ∧ x = moduleOf e.package := by
  unfold addDeferred
  by_cases hown : e.package = package
  · simp [hown]
  · simp [hown, OrderedSet.mem_insert, or_comm]

/-- Putting off an edge changes the deferred modules only. -/
theorem imports_addDeferred (m : CodeModule) (e : ImportEdge) : (addDeferred package m e).imports = m.imports := by
  unfold addDeferred
  split <;> rfl

/-- An import is added to import sets. -/
theorem bare_addImport (m : CodeModule) (e : ImportEdge) :
    (addImport o package m e).bare = addImport o package m.bare e := by
  unfold addImport
  split
  · rfl
  · split <;> rfl

/-- A deferred edge is added to import sets. -/
theorem bare_addDeferred (m : CodeModule) (e : ImportEdge) :
    (addDeferred package m e).bare = addDeferred package m.bare e := by
  unfold addDeferred
  split <;> rfl

/-- A class adds its edges to import sets. -/
theorem bare_addEdges (m : CodeModule) (c : Class) :
    (addEdges o package m c).bare = addEdges o package m.bare c := by
  rw [addEdges, addEdges, ← List.foldl_hom CodeModule.bare fun m e => (bare_addDeferred m e).symm,
    ← List.foldl_hom CodeModule.bare fun m e => (bare_addImport m e).symm]

/-- A class imports what its imports lead to, unless that derives from its package. -/
theorem mem_imports_addEdges :
    x ∈ (addEdges o package m c).imports ↔ x ∈ m.imports ∨ ∃ e ∈ c.imports, LeadsTo o package false e x := by
  rw [addEdges, Ontology.foldl_keeps CodeModule.imports imports_addDeferred]
  exact foldl_iff (x ∈ CodeModule.imports ·) (LeadsTo o package false · x) (fun m e => mem_imports_addImport) _ m

/-- A class puts off its deferred imports and imports of what derives from its package. -/
theorem mem_deferred_addEdges :
    x ∈ (addEdges o package m c).deferred ↔ x ∈ m.deferred ∨ (∃ e ∈ c.imports, LeadsTo o package true e x) ∨
      ∃ e ∈ c.circularImports, e.package ≠ package ∧ x = moduleOf e.package := by
  rw [addEdges, foldl_iff (x ∈ CodeModule.deferred ·) (fun e => e.package ≠ package ∧ x = moduleOf e.package)
    fun m e => mem_deferred_addDeferred, ← or_assoc]
  apply or_congr_left
  exact foldl_iff (x ∈ CodeModule.deferred ·) (LeadsTo o package true · x) (fun m e => mem_deferred_addImport) _ m

end Edges

section Packages

variable (ho : o.Arena) (hnames : (o.packages.map Package.name).Nodup)

include ho hnames

/-- There is a module for each package, in the order of their names. -/
theorem entries_modules : (Backend.dataModel.modules o).entries =
    o.sortedPackages.map fun p => (p.name, (Backend.dataModel.modules o).get p.name) := by
  have hopens : o.sortedPackages.filter (Backend.dataModel.opens o) = o.sortedPackages :=
    List.filter_eq_self.mpr fun _ _ => rfl
  rw [Backend.entries_modules ho hnames, hopens]

/-- The import sets of the module of a package are those of its bases with the edges of its classes. -/
theorem bare_get_modules (hp : p ∈ o.packages) : ((Backend.dataModel.modules o).get p.name).bare =
    (o.namedClasses p.id).foldl (addEdges o p.name) (openModule o p).bare := by
  have hshows : (o.namedClasses p.id).filter (fun c => Backend.dataModel.shows o (.ofClass c)) = o.namedClasses p.id :=
    List.filter_eq_self.mpr fun _ _ => rfl
  have henum (m : CodeModule) (e : Enumeration) : (Backend.dataModel.grow o p.name m (.ofEnum e)).bare = m.bare := rfl
  have hclass (m : CodeModule) (c : Class) : addEdges o p.name m.bare c =
      (Backend.dataModel.grow o p.name m (.ofClass c)).bare := (bare_addEdges m c).symm
  rw [Backend.get_modules, Backend.filter_fills_eq ho hnames hp, Backend.get_opening hnames hp rfl, hshows,
    List.foldl_append, List.foldl_map, List.foldl_map, Ontology.foldl_keeps CodeModule.bare henum,
    ← List.foldl_hom CodeModule.bare hclass]
  rfl

/-- The eager modules are those of the packages that hold bases. -/
theorem eager_get_modules (hp : p ∈ o.packages) :
    ((Backend.dataModel.modules o).get p.name).eager = OrderedSet.ofList ((basePackages o p).toList.map moduleOf) := by
  change ((Backend.dataModel.modules o).get p.name).bare.eager = _
  rw [bare_get_modules ho hnames hp,
    Ontology.foldl_keeps CodeModule.eager (addEdges_keeps CodeModule.eager (fun _ _ => rfl) fun _ _ => rfl)]
  rfl

/-- The modules imported for a package are those that its classes import and that do not derive from it. -/
theorem mem_imports_get_modules (hp : p ∈ o.packages) : x ∈ ((Backend.dataModel.modules o).get p.name).imports ↔
    ∃ c ∈ o.classes, c.package = p.id ∧ ∃ e ∈ c.imports, LeadsTo o p.name false e x := by
  change x ∈ ((Backend.dataModel.modules o).get p.name).bare.imports ↔ _
  have hclass (m : CodeModule) (c : Class) : x ∈ (addEdges o p.name m c).imports ↔
      x ∈ m.imports ∨ ∃ e ∈ c.imports, LeadsTo o p.name false e x := mem_imports_addEdges
  rw [bare_get_modules ho hnames hp, foldl_iff (x ∈ CodeModule.imports ·) _ hclass]
  simp [CodeModule.bare, openModule, CodeModule.new, Ontology.namedClasses, Ontology.sortedClasses, and_assoc]

/-- The modules put off for a package are those that its classes defer or import, deriving from it. -/
theorem mem_deferred_get_modules (hp : p ∈ o.packages) : x ∈ ((Backend.dataModel.modules o).get p.name).deferred ↔
    ∃ c ∈ o.classes, c.package = p.id ∧ ((∃ e ∈ c.imports, LeadsTo o p.name true e x) ∨
      ∃ e ∈ c.circularImports, e.package ≠ p.name ∧ x = moduleOf e.package) := by
  change x ∈ ((Backend.dataModel.modules o).get p.name).bare.deferred ↔ _
  have hclass (m : CodeModule) (c : Class) : x ∈ (addEdges o p.name m c).deferred ↔
      x ∈ m.deferred ∨ (∃ e ∈ c.imports, LeadsTo o p.name true e x) ∨
        ∃ e ∈ c.circularImports, e.package ≠ p.name ∧ x = moduleOf e.package := mem_deferred_addEdges
  rw [bare_get_modules ho hnames hp, foldl_iff (x ∈ CodeModule.deferred ·) _ hclass]
  simp [CodeModule.bare, openModule, CodeModule.new, Ontology.namedClasses, Ontology.sortedClasses, and_assoc]

end Packages

end DataModel

end OntologyCompiler
