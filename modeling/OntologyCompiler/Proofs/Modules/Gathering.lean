import OntologyCompiler.Backend.Selection
import OntologyCompiler.Proofs.Order
import OntologyCompiler.Proofs.Ordered

/-!
# How modules are gathered

Three backends gather modules on a walk, and all of them in one way. A package may open a module under its name, and a
class or an enumeration may add to the module of its package: its block, and for a class of the data model its imports
too. Packages come first. So the module of a name is what a package of that name has opened, with the items of all
packages of that name added one after the other, whether the names of packages are different or not.
-/

namespace OntologyCompiler

/-- What a module has blocks for. -/
inductive Item where
  | ofClass (c : Class)
  | ofEnum (e : Enumeration)

namespace Item

/-- The name of an item. -/
def name : Item → String
  | .ofClass c => c.name
  | .ofEnum e => e.name

/-- The package of an item. -/
def package : Item → PackageId
  | .ofClass c => c.package
  | .ofEnum e => e.package

/-- The stop at which a walk comes to an item. -/
def visit : Item → Visit
  | .ofClass c => .ofClass c
  | .ofEnum e => .ofEnum e

end Item

namespace Ontology

/-- The items of an ontology in the order in which a walk comes to them. -/
def items (o : Ontology) : List Item := o.sortedClasses.map .ofClass ++ o.sortedEnums.map .ofEnum

/-- The classes of a package in order of names. -/
def namedClasses (o : Ontology) (id : PackageId) : List Class := o.sortedClasses.filter fun c => c.package = id

/-- The enumerations of a package in order of names. -/
def namedEnums (o : Ontology) (id : PackageId) : List Enumeration := o.sortedEnums.filter fun e => e.package = id

/-- The length of the chain of bases of a class. -/
def depth (o : Ontology) (c : Class) : Nat := (o.ancestors c.id).length

/-- The stops of a walk before the last one. -/
def stops (o : Ontology) : List Visit :=
  [.start, .ontology] ++ o.sortedPackages.map .package ++ o.sortedClasses.map .ofClass ++
    o.sortedEnums.map .ofEnum

/-- The last stop of a walk is its end. -/
theorem visits_eq (o : Ontology) : o.visits = o.stops ++ [.finish] := rfl

/-- A walk comes to its end once. -/
theorem ne_finish_of_mem_stops {o : Ontology} {v : Visit} (h : v ∈ o.stops) : v ≠ .finish := by
  rintro rfl
  simp [stops] at h

/-- The classes among the items are all classes. -/
theorem ofClass_mem_items {o : Ontology} {c : Class} : .ofClass c ∈ o.items ↔ c ∈ o.classes := by
  simp [items, sortedClasses]

end Ontology

/-- Something holds after some steps exactly if it held before or one of the steps asks for it. -/
theorem foldl_iff {σ α : Type} {step : σ → α → σ} (holds : σ → Prop) (asks : α → Prop)
    (h : ∀ s a, holds (step s a) ↔ holds s ∨ asks a) (l : List α) (s : σ) :
    holds (l.foldl step s) ↔ holds s ∨ ∃ a ∈ l, asks a := by
  induction l generalizing s with
  | nil => simp
  | cons a l ih =>
    rw [List.foldl_cons, ih, h]
    simp [or_assoc]

/-- Steps that change an observation for some items only change it as these items do. -/
theorem foldl_filter {σ α β : Type} {step : σ → α → σ} {own : α → Prop} [DecidablePred own] (observe : σ → β)
    (f : β → α → β) (h : ∀ s a, observe (step s a) = if own a then f (observe s) a else observe s)
    (l : List α) (s : σ) : observe (l.foldl step s) = (l.filter (own ·)).foldl f (observe s) := by
  induction l generalizing s with
  | nil => rfl
  | cons a l ih =>
    rw [List.foldl_cons, ih, h]
    by_cases ha : own a <;> simp [ha]

/-- What is observed after steps that each put one item behind it. -/
theorem foldl_snoc {σ α β : Type} {step : σ → α → σ} (observe : σ → List β) (item : α → β)
    (h : ∀ s a, observe (step s a) = observe s ++ [item a]) (l : List α) (s : σ) :
    observe (l.foldl step s) = observe s ++ l.map item := by
  induction l generalizing s with
  | nil => simp
  | cons a l ih => rw [List.foldl_cons, ih, h, List.append_assoc, List.map_cons, List.singleton_append]

namespace CodeModules

variable {ms : CodeModules} {package name : String} {f : CodeModule → CodeModule}

/-- A change of one module is seen at that module only. -/
theorem get_update : (ms.update package f).get name =
    if name = package then f (ms.get package) else ms.get name := by
  rw [get, update, OrderedMap.get?_insert]
  by_cases h : name = package <;> simp [h, get]

/-- A changed module is there. -/
theorem isSome_get?_update : ((ms.update package f).get? name).isSome = true ↔
    (ms.get? name).isSome = true ∨ name = package := by
  rw [update, OrderedMap.get?_insert]
  by_cases h : name = package <;> simp [h]

/-- A listed module is found under its name. -/
theorem get_of_mem {e : String × CodeModule} (he : e ∈ ms.entries) : ms.get e.1 = e.2 := by
  have hget : ms.get? e.1 = some e.2 := OrderedMap.get?_eq_some_iff.mpr he
  simp [get, hget]

/-- Modules that are there for the names of packages in order are listed in that order. -/
theorem entries_eq_map {l : List Package} (hl : l.Pairwise fun p q => compare p.name q.name = .lt)
    (h : ∀ name, (ms.get? name).isSome = true ↔ ∃ p ∈ l, p.name = name) :
    ms.entries = l.map fun p => (p.name, ms.get p.name) := by
  refine eq_of_ascending ms.ascending (List.pairwise_map.mpr hl) fun ⟨name, m⟩ => ?_
  rw [← OrderedMap.get?_eq_some_iff, List.mem_map]
  refine ⟨fun hget => ?_, fun ⟨p, hp, heq⟩ => ?_⟩
  · obtain ⟨p, hp, rfl⟩ := (h name).mp (by rw [hget]; rfl)
    exact ⟨p, hp, by simp [get, hget]⟩
  · obtain ⟨rfl, rfl⟩ := Prod.mk.inj heq
    obtain ⟨m, hm⟩ := Option.isSome_iff_exists.mp ((h p.name).mpr ⟨p, hp, rfl⟩)
    simp [get, hm]

end CodeModules

/-- Packages of one name are one package, if names are different. -/
theorem Package.eq_of_name_eq {o : Ontology} {p q : Package} (hnames : (o.packages.map Package.name).Nodup)
    (hp : p ∈ o.packages) (hq : q ∈ o.packages) (h : p.name = q.name) : p = q :=
  List.inj_on_of_nodup_map hnames hp hq h

/-- The edges of a class added to the module of its package. -/
def DataModel.addEdges (o : Ontology) (package : String) (m : CodeModule) (c : Class) : CodeModule :=
  c.circularImports.toList.foldl (addDeferred package) (c.imports.toList.foldl (addImport o package) m)

/-- The edges of a class change what is imported and put off, and nothing else. -/
theorem DataModel.addEdges_keeps {o : Ontology} {package : String} {β : Type} (observe : CodeModule → β)
    (himports : ∀ m s, observe { m with imports := s } = observe m)
    (hdeferred : ∀ m s, observe { m with deferred := s } = observe m) (m : CodeModule) (c : Class) :
    observe (addEdges o package m c) = observe m := by
  have himport (m : CodeModule) (e : ImportEdge) : observe (addImport o package m e) = observe m := by
    unfold addImport
    split
    · rfl
    · split
      · exact hdeferred m _
      · exact himports m _
  have hdefer (m : CodeModule) (e : ImportEdge) : observe (addDeferred package m e) = observe m := by
    unfold addDeferred
    split
    · rfl
    · exact hdeferred m _
  rw [addEdges, Ontology.foldl_keeps observe hdefer, Ontology.foldl_keeps observe himport]

namespace Backend

variable (b : Backend) (o : Ontology)

/-- The modules after a stop before the end. -/
def gather (ms : CodeModules) (v : Visit) : CodeModules := (b.generator.visit o default v ⟨ms, []⟩).2.modules

/-- The modules that a run has gathered when it comes to its end. -/
def modules : CodeModules := o.stops.foldl (b.gather o) ∅

/-- The module that a backend opens for a package. -/
def opened (p : Package) : CodeModule :=
  match b with
  | .dataModel => DataModel.openModule o p
  | .decodingRules => CodeModule.new (DecodingRules.header o p)
  | .instanceChecks => CodeModule.new (InstanceChecks.header o p)
  | .packageRoot => CodeModule.new []

/-- Whether a package opens a module. -/
def opens (p : Package) : Bool :=
  match b with
  | .dataModel => true
  | .decodingRules => DecodingRules.hasDecodings o p
  | .instanceChecks => !(o.concreteClasses p.id).isEmpty
  | .packageRoot => false

/-- Whether an item adds a block. -/
def shows : Item → Bool
  | .ofClass c =>
    match b with
    | .dataModel => true
    | .decodingRules => !(o.allDecodings c.id).isEmpty
    | .instanceChecks => !c.isAbstract
    | .packageRoot => false
  | .ofEnum _ => b == .dataModel

/-- The depth of the block of a class. -/
def classDepth (c : Class) : Nat :=
  match b with
  | .dataModel => o.depth c
  | .decodingRules | .instanceChecks | .packageRoot => 0

/-- The block of an item in the module of a name. -/
def block (package : String) : Item → CodeBlock
  | .ofClass c =>
    match b with
    | .dataModel => ⟨0, o.depth c, DataModel.classText o c package⟩
    | .decodingRules => ⟨0, 0, DecodingRules.functionText o c package⟩
    | .instanceChecks => ⟨0, 0, InstanceChecks.functionText o c⟩
    | .packageRoot => default
  | .ofEnum e => ⟨1, 0, DataModel.enumText e⟩

/-- The imports of an item added to the module of a name. -/
def link (package : String) (m : CodeModule) (i : Item) : CodeModule :=
  match b, i with
  | .dataModel, .ofClass c => DataModel.addEdges o package m c
  | _, _ => m

/-- An item added to the module of a name: its imports and its block. -/
def grow (package : String) (m : CodeModule) (i : Item) : CodeModule :=
  (b.link o package m i).push (b.block o package i)

/-- The modules with that of a package opened, if it opens one. -/
def openFor (ms : CodeModules) (p : Package) : CodeModules :=
  if b.opens o p then ms.insert p.name (b.opened o p) else ms

/-- The modules when all packages have opened theirs. -/
def opening : CodeModules := o.sortedPackages.foldl (b.openFor o) ∅

/-- The modules with an item added to that of its package, if it adds to one. -/
def add (ms : CodeModules) (i : Item) : CodeModules :=
  match o.package? i.package with
  | some p => if b.shows o i then ms.update p.name (b.grow o p.name · i) else ms
  | none => ms

/-- An item adds to the module of a name: it has a block, and its package has that name. -/
def Fills (name : String) (i : Item) : Prop :=
  b.shows o i = true ∧ (o.package? i.package).map Package.name = some name

instance (name : String) : DecidablePred (b.Fills o name) := fun i =>
  inferInstanceAs (Decidable (b.shows o i = true ∧ (o.package? i.package).map Package.name = some name))

variable {b o} {options : GenerationOptions} {ms : CodeModules} {name : String} {m : CodeModule} {p : Package}
  {i : Item}

/-- The block of a class comes in the first rank. -/
theorem rank_block_ofClass (package : String) (c : Class) : (b.block o package (.ofClass c)).rank = 0 := by
  cases b <;> rfl

/-- The block of a class has its depth. -/
theorem depth_block_ofClass (package : String) (c : Class) :
    (b.block o package (.ofClass c)).depth = b.classDepth o c := by
  cases b <;> rfl

/-- A package opens its module. -/
theorem modules_visit_package (p : Package) (d : Draft) :
    (b.generator.visit o options (.package p) d).2.modules = b.openFor o d.modules p := by
  cases b with
  | dataModel => rfl
  | decodingRules =>
    change (DecodingRules.visit o options (.package p) d).2.modules = if DecodingRules.hasDecodings o p then _ else _
    rw [DecodingRules.visit]
    split <;> rfl
  | instanceChecks =>
    change (InstanceChecks.visit o options (.package p) d).2.modules =
      if (!(o.concreteClasses p.id).isEmpty) = true then _ else _
    rw [InstanceChecks.visit]
    cases (o.concreteClasses p.id).isEmpty <;> rfl
  | packageRoot => rfl

/-- An item is visited for its package. -/
theorem package?_visit (i : Item) : i.visit.package? o = o.package? i.package := by cases i <;> rfl

/-- An item without a package adds nothing. -/
theorem modules_visit_of_none (h : o.package? i.package = none) (d : Draft) :
    (b.generator.visit o options i.visit d).2.modules = d.modules := by
  rw [← package?_visit] at h
  cases i <;> cases b
  all_goals
    simp only [Item.visit] at h
    simp only [Item.visit, generator, DataModel.generator, DecodingRules.generator, InstanceChecks.generator,
      PackageRoot.generator, DataModel.visit, DecodingRules.visit, InstanceChecks.visit, PackageRoot.visit, h]

/-- An item of a package adds to the module of that, if it has a block. -/
theorem modules_visit_of_some (h : o.package? i.package = some p) (d : Draft) :
    (b.generator.visit o options i.visit d).2.modules =
      if b.shows o i then d.modules.update p.name (b.grow o p.name · i) else d.modules := by
  rw [← package?_visit] at h
  cases b with
  | dataModel =>
    change (DataModel.visit o options i.visit d).2.modules = _
    have hshows : dataModel.shows o i = true := by cases i <;> rfl
    rw [if_pos hshows]
    unfold DataModel.visit
    rw [h]
    cases i <;> rfl
  | decodingRules =>
    change (DecodingRules.visit o options i.visit d).2.modules = _
    unfold DecodingRules.visit
    rw [h]
    cases i with
    | ofEnum e => rfl
    | ofClass c =>
      change (if (o.allDecodings c.id).isEmpty then _ else _ : List Emission × Draft).2.modules =
        if !(o.allDecodings c.id).isEmpty then _ else _
      cases (o.allDecodings c.id).isEmpty <;> rfl
  | instanceChecks =>
    change (InstanceChecks.visit o options i.visit d).2.modules = _
    unfold InstanceChecks.visit
    rw [h]
    cases i with
    | ofEnum e => rfl
    | ofClass c =>
      change (if c.isAbstract then _ else _ : List Emission × Draft).2.modules = if !c.isAbstract then _ else _
      cases c.isAbstract <;> rfl
  | packageRoot =>
    change (PackageRoot.visit o options i.visit d).2.modules = _
    unfold PackageRoot.visit
    rw [h]
    cases i with
    | ofEnum e => rfl
    | ofClass c =>
      change (if !c.isAbstract && o.isEntity c.id then _ else _ : List Emission × Draft).2.modules = d.modules
      cases !c.isAbstract && o.isEntity c.id <;> rfl

/-- An item adds to the module of its package. -/
theorem modules_visit_item (i : Item) (d : Draft) :
    (b.generator.visit o options i.visit d).2.modules = b.add o d.modules i := by
  unfold add
  split
  next p hp => exact modules_visit_of_some hp d
  next hnone => exact modules_visit_of_none hnone d

/-- What a stop before the end makes of the modules of a draft depends on these only. -/
theorem modules_visit {v : Visit} (hv : v ≠ .finish) (d : Draft) :
    (b.generator.visit o options v d).2.modules = b.gather o d.modules v := by
  cases v with
  | start => cases b <;> rfl
  | ontology => cases b <;> rfl
  | package p => exact (modules_visit_package p d).trans (modules_visit_package p ⟨d.modules, []⟩).symm
  | ofClass c => exact (modules_visit_item (.ofClass c) d).trans (modules_visit_item (.ofClass c) ⟨d.modules, []⟩).symm
  | ofEnum e => exact (modules_visit_item (.ofEnum e) d).trans (modules_visit_item (.ofEnum e) ⟨d.modules, []⟩).symm
  | finish => exact absurd rfl hv

/-- Modules are opened for packages, and then filled with items. -/
theorem modules_eq (b : Backend) (o : Ontology) : b.modules o = o.items.foldl (b.add o) (b.opening o) := by
  have hstart : b.gather o (b.gather o ∅ .start) .ontology = ∅ := by cases b <;> rfl
  have hpackage (ms : CodeModules) (p : Package) : b.gather o ms (.package p) = b.openFor o ms p :=
    modules_visit_package p ⟨ms, []⟩
  have hclass (ms : CodeModules) (c : Class) : b.gather o ms (.ofClass c) = b.add o ms (.ofClass c) :=
    modules_visit_item (.ofClass c) ⟨ms, []⟩
  have henum (ms : CodeModules) (e : Enumeration) : b.gather o ms (.ofEnum e) = b.add o ms (.ofEnum e) :=
    modules_visit_item (.ofEnum e) ⟨ms, []⟩
  simp only [modules, Ontology.stops, Ontology.items, opening, List.foldl_append, List.foldl_cons, List.foldl_nil,
    List.foldl_map, hstart, hpackage, hclass, henum]

/-- Modules are opened under the names of packages that open one. -/
theorem isSome_get?_opening : ((b.opening o).get? name).isSome = true ↔
    ∃ p ∈ o.packages, b.opens o p = true ∧ p.name = name := by
  have hopen (ms : CodeModules) (p : Package) : ((b.openFor o ms p).get? name).isSome = true ↔
      (ms.get? name).isSome = true ∨ b.opens o p = true ∧ p.name = name := by
    unfold openFor
    split
    next hopens =>
      rw [OrderedMap.get?_insert]
      by_cases hname : name = p.name <;> simp [hopens, hname, Ne.symm]
    next hnot => simp [hnot]
  have hempty : ¬ ((∅ : CodeModules).get? name).isSome = true := Bool.false_ne_true
  rw [opening, foldl_iff (fun ms : CodeModules => (ms.get? name).isSome = true) _ hopen, or_iff_right hempty]
  simp only [Ontology.sortedPackages, perm_sortOn.mem_iff]

/-- What is opened under a name was opened by a package of that name. -/
theorem exists_of_get?_opening (h : (b.opening o).get? name = some m) :
    ∃ p ∈ o.packages, b.opens o p = true ∧ p.name = name ∧ b.opened o p = m := by
  let fits (ms : CodeModules) : Prop :=
    ∀ m, ms.get? name = some m → ∃ p ∈ o.packages, b.opens o p = true ∧ p.name = name ∧ b.opened o p = m
  have hopen (ms : CodeModules) (hms : fits ms) (p : Package) (hp : p ∈ o.sortedPackages) :
      fits (b.openFor o ms p) := by
    intro m hm
    unfold openFor at hm
    split at hm
    next hopens =>
      rw [OrderedMap.get?_insert] at hm
      split at hm
      next hname => exact ⟨p, perm_sortOn.mem_iff.mp hp, hopens, hname.symm, Option.some.inj hm⟩
      next => exact hms m hm
    next => exact hms m hm
  have hnone : fits ∅ := by
    intro m hm
    cases hm
  have hall : fits (b.opening o) := List.foldlRecOn _ _ hnone hopen
  exact hall m h

/-- Whether an item adds to the module of a name is a question of the name of its package. -/
theorem fills_iff (hp : o.package? i.package = some p) : b.Fills o name i ↔ b.shows o i = true ∧ p.name = name := by
  rw [Fills, hp]
  exact and_congr_right fun _ => Option.some_inj

/-- An item without a package adds to no module. -/
theorem not_fills (hnone : o.package? i.package = none) : ¬ b.Fills o name i := by
  rw [Fills, hnone]
  exact fun hfills => nomatch hfills.2

/-- An item changes the module of a name if it adds to it, and leaves it alone else. -/
theorem get_add (ms : CodeModules) (i : Item) :
    (b.add o ms i).get name = if b.Fills o name i then b.grow o name (ms.get name) i else ms.get name := by
  unfold add
  split
  next p hp =>
    split
    next hshows =>
      rw [CodeModules.get_update]
      by_cases hname : name = p.name
      · rw [if_pos hname, if_pos ((fills_iff hp).mpr ⟨hshows, hname.symm⟩), hname]
      · rw [if_neg hname, if_neg fun hfills => hname ((fills_iff hp).mp hfills).2.symm]
    next hnot => rw [if_neg fun hfills => hnot hfills.1]
  next hnone => rw [if_neg (not_fills hnone)]

/-- The module of a name is the opened one with the items that add to it. -/
theorem get_modules (b : Backend) (o : Ontology) (name : String) : (b.modules o).get name =
    (o.items.filter (b.Fills o name ·)).foldl (b.grow o name) ((b.opening o).get name) := by
  rw [modules_eq, foldl_filter (fun ms : CodeModules => ms.get name) (b.grow o name) get_add]

/-- An item leaves the header as it is. -/
theorem header_grow (m : CodeModule) (i : Item) : (b.grow o name m i).header = m.header := by
  change (b.link o name m i).header = m.header
  unfold link
  split
  · exact DataModel.addEdges_keeps CodeModule.header (fun _ _ => rfl) (fun _ _ => rfl) m _
  · rfl

/-- An item adds its block behind those before it. -/
theorem blocks_grow (m : CodeModule) (i : Item) : (b.grow o name m i).blocks = m.blocks ++ [b.block o name i] := by
  change (b.link o name m i).blocks ++ _ = _
  unfold link
  split
  · rw [DataModel.addEdges_keeps CodeModule.blocks (fun _ _ => rfl) fun _ _ => rfl]
  · rfl

/-- A module has the header that it was opened with. -/
theorem header_get_modules : ((b.modules o).get name).header = ((b.opening o).get name).header := by
  rw [get_modules, Ontology.foldl_keeps CodeModule.header header_grow]

/-- A module has the blocks of the items that add to it. -/
theorem blocks_get_modules : ((b.modules o).get name).blocks =
    (o.items.filter (b.Fills o name ·)).map (b.block o name) := by
  have hopening : ((b.opening o).get name).blocks = [] := by
    rw [CodeModules.get]
    cases hm : (b.opening o).get? name with
    | none => rfl
    | some m =>
      obtain ⟨p, -, -, -, rfl⟩ := exists_of_get?_opening hm
      cases b <;> rfl
  rw [get_modules, foldl_snoc CodeModule.blocks (b.block o name) blocks_grow, hopening, List.nil_append]

/-- Only modules of the data model import siblings. -/
theorem imports_get_modules (hb : b ≠ .dataModel) (name : String) : ((b.modules o).get name).eager = ∅ ∧
    ((b.modules o).get name).imports = ∅ ∧ ((b.modules o).get name).deferred = ∅ := by
  have hgrow (m : CodeModule) (i : Item) : ((b.grow o name m i).eager, (b.grow o name m i).imports,
      (b.grow o name m i).deferred) = (m.eager, m.imports, m.deferred) := by
    cases b with
    | dataModel => exact absurd rfl hb
    | _ => rfl
  have hopening : ((b.opening o).get name).eager = ∅ ∧ ((b.opening o).get name).imports = ∅ ∧
      ((b.opening o).get name).deferred = ∅ := by
    rw [CodeModules.get]
    cases hm : (b.opening o).get? name with
    | none => exact ⟨rfl, rfl, rfl⟩
    | some m =>
      obtain ⟨p, -, -, -, rfl⟩ := exists_of_get?_opening hm
      cases b with
      | dataModel => exact absurd rfl hb
      | _ => exact ⟨rfl, rfl, rfl⟩
  have hkept := Ontology.foldl_keeps (fun m : CodeModule => (m.eager, m.imports, m.deferred)) hgrow
    (o.items.filter (b.Fills o name ·)) ((b.opening o).get name)
  rw [← get_modules] at hkept
  simpa [Prod.ext_iff, hopening] using hkept

/-- There is a module for each name of a package that opens one and for each item that adds to one. -/
theorem isSome_get?_modules_iff : ((b.modules o).get? name).isSome = true ↔
    (∃ p ∈ o.packages, b.opens o p = true ∧ p.name = name) ∨ ∃ i ∈ o.items, b.Fills o name i := by
  have hadd (ms : CodeModules) (i : Item) : ((b.add o ms i).get? name).isSome = true ↔
      (ms.get? name).isSome = true ∨ b.Fills o name i := by
    unfold add
    split
    next p hp =>
      rw [fills_iff hp]
      split
      next hshows => rw [CodeModules.isSome_get?_update, and_iff_right hshows, @eq_comm _ name]
      next hnot => rw [or_iff_left fun hfills => hnot hfills.1]
    next hnone => rw [or_iff_left (not_fills hnone)]
  rw [modules_eq, foldl_iff (fun ms : CodeModules => (ms.get? name).isSome = true) _ hadd, isSome_get?_opening]

/-- Modules are gathered under the names of packages. -/
theorem exists_package_of_mem_modules {e : String × CodeModule} (he : e ∈ (b.modules o).entries) :
    ∃ p ∈ o.packages, p.name = e.1 := by
  have hmodule := Option.isSome_of_mem (OrderedMap.get?_eq_some_iff.mpr he)
  rcases isSome_get?_modules_iff.mp hmodule with ⟨p, hp, -, hname⟩ | ⟨i, -, -, hname⟩
  · exact ⟨p, hp, hname⟩
  · obtain ⟨p, hp, hname⟩ := Option.map_eq_some_iff.mp hname
    exact ⟨p, List.mem_of_getElem? hp, hname⟩

section Arena

variable (ho : o.Arena)

include ho

/-- A backend with functions opens a module for a package exactly if a class of it gets one. -/
theorem opens_iff (hp : p ∈ o.packages) : b.opens o p = true ↔
    b = .dataModel ∨ ∃ c ∈ o.classes, c.package = p.id ∧ b.shows o (.ofClass c) = true := by
  cases b with
  | dataModel => simp [opens]
  | decodingRules =>
    change (p.classes.any fun id => !(o.allDecodings id).isEmpty) = true ↔ _
    rw [or_iff_right (by decide)]
    simp only [List.any_eq_true, ho.package_classes (ho.package?_of_mem hp)]
    constructor
    · rintro ⟨id, ⟨c, hc, hown⟩, hshows⟩
      have hid : c.id = id := ho.class_id hc
      exact ⟨c, Ontology.Arena.mem_of_class? hc, hown, show (!(o.allDecodings c.id).isEmpty) = true from hid ▸ hshows⟩
    · rintro ⟨c, hc, hown, hshows⟩
      exact ⟨c.id, ⟨c, ho.class?_of_mem hc, hown⟩, hshows⟩
  | instanceChecks =>
    have hconcrete (c : Class) : c ∈ o.concreteClasses p.id ↔
        (c ∈ o.classes ∧ c.package = p.id) ∧ (!c.isAbstract) = true := by
      rw [Ontology.concreteClasses, Ontology.classesOf, ho.package?_of_mem hp, List.mem_filter,
        ← ho.mem_filterMap_class?_iff hp]
      rfl
    change (!(o.concreteClasses p.id).isEmpty) = true ↔ _
    rw [or_iff_right (by decide), Bool.not_eq_true', List.isEmpty_eq_false_iff_exists_mem]
    simp only [hconcrete, and_assoc]
    rfl
  | packageRoot => simp [opens, shows]

/-- The package of an item that has a block opens a module. -/
theorem opens_of_shows (hp : p ∈ o.packages) (hi : i ∈ o.items) (hpackage : i.package = p.id)
    (hshows : b.shows o i = true) : b.opens o p = true := by
  refine (opens_iff ho hp).mpr ?_
  cases i with
  | ofClass c => exact Or.inr ⟨c, Ontology.ofClass_mem_items.mp hi, hpackage, hshows⟩
  | ofEnum e => exact Or.inl (beq_iff_eq.mp hshows)

/-- There is a module for each name of a package that opens one and for nothing else. -/
theorem isSome_get?_modules : ((b.modules o).get? name).isSome = true ↔
    ∃ p ∈ o.packages, b.opens o p = true ∧ p.name = name := by
  rw [isSome_get?_modules_iff]
  refine or_iff_left_of_imp ?_
  rintro ⟨i, hi, hshows, hpackage⟩
  obtain ⟨p, hp, hname⟩ := Option.map_eq_some_iff.mp hpackage
  have hmem : p ∈ o.packages := List.mem_of_getElem? hp
  exact ⟨p, hmem, opens_of_shows ho hmem hi (ho.package_id hp).symm hshows, hname⟩

end Arena

section Names

variable (ho : o.Arena) (hnames : (o.packages.map Package.name).Nodup)

include ho hnames

/-- The modules are listed in the order of package names. -/
theorem entries_modules : (b.modules o).entries =
    (o.sortedPackages.filter (b.opens o)).map fun p => (p.name, (b.modules o).get p.name) := by
  refine CodeModules.entries_eq_map ((pairwise_lt_sortOn hnames).filter _) fun name => ?_
  rw [isSome_get?_modules ho]
  simp only [List.mem_filter, Ontology.sortedPackages, perm_sortOn.mem_iff, and_assoc]

omit ho in
/-- A package that opens a module is the one that has opened it. -/
theorem get_opening (hp : p ∈ o.packages) (hopens : b.opens o p = true) :
    (b.opening o).get p.name = b.opened o p := by
  obtain ⟨m, hm⟩ := Option.isSome_iff_exists.mp (isSome_get?_opening.mpr ⟨p, hp, hopens, rfl⟩)
  obtain ⟨q, hq, -, hname, rfl⟩ := exists_of_get?_opening hm
  obtain rfl := Package.eq_of_name_eq hnames hq hp hname
  simp [CodeModules.get, hm]

/-- The items that add to the module of a package are its own: classes and then enumerations. -/
theorem filter_fills_eq (hp : p ∈ o.packages) : o.items.filter (b.Fills o p.name ·) =
    ((o.namedClasses p.id).filter fun c => b.shows o (.ofClass c)).map .ofClass ++
      ((o.namedEnums p.id).filter fun e => b.shows o (.ofEnum e)).map .ofEnum := by
  have howner (id : PackageId) : (o.package? id).map Package.name = some p.name ↔ id = p.id := by
    rw [Option.map_eq_some_iff]
    constructor
    · rintro ⟨q, hq, hname⟩
      rw [← Package.eq_of_name_eq hnames (List.mem_of_getElem? hq) hp hname, ho.package_id hq]
    · rintro rfl
      exact ⟨p, ho.package?_of_mem hp, rfl⟩
  have hfills (i : Item) : b.Fills o p.name i ↔ b.shows o i = true ∧ i.package = p.id :=
    and_congr_right fun _ => howner i.package
  simp only [Ontology.items, Ontology.namedClasses, Ontology.namedEnums, List.filter_append, List.filter_map,
    List.filter_filter]
  congr 2
  · refine List.filter_congr fun c _ => ?_
    simp [hfills, Item.package]
  · refine List.filter_congr fun e _ => ?_
    simp [hfills, Item.package]

end Names

end Backend

end OntologyCompiler
