import OntologyCompiler.Backend.Selection
import OntologyCompiler.Proofs.Generation.Engine
import OntologyCompiler.Proofs.Loading.Modules

/-!
# What the backends write

The backends only gather until a walk ends, and then emit what they have gathered: the data model, the
decoding rules and the instance checks one file for each module, the root module its one file. A run that
nothing refuses writes just that, or nothing if the backend is not required.
-/

namespace OntologyCompiler

namespace Generator

variable {σ ω : Type} {g : Generator σ} {o : Ontology} {options : GenerationOptions} {w : Writer ω} {s : σ}
  {k k' : ω}

/-- Stops in two parts are answered one part after the other. -/
theorem emissions_append (stops rest : List Visit) (s : σ) : g.emissions o options (stops ++ rest) s =
    g.emissions o options stops s ++ g.emissions o options rest (g.after o options stops s) := by
  induction stops generalizing s with
  | nil => rfl
  | cons v stops ih =>
    rw [List.cons_append, emissions, emissions, ih, List.append_assoc]
    rfl

/-- A backend that emits nothing before the end of a walk. -/
def Silent (g : Generator σ) : Prop :=
  ∀ o options v s, v ≠ Visit.finish → (g.visit o options v s).1 = []

/-- A backend that is silent before the end emits nothing at the stops before it. -/
theorem Silent.emissions_stops (hg : g.Silent) : g.emissions o options o.stops s = [] := by
  have hsilent (stops : List Visit) (hstops : ∀ v ∈ stops, v ≠ .finish) (s : σ) :
      g.emissions o options stops s = [] := by
    induction stops generalizing s with
    | nil => rfl
    | cons v stops ih =>
      obtain ⟨hv, hrest⟩ := List.forall_mem_cons.mp hstops
      rw [emissions, hg o options v s hv, ih hrest]
      rfl
  exact hsilent o.stops (fun _ => Ontology.ne_finish_of_mem_stops) s

/-- A backend that is silent before the end emits what it has gathered by then. -/
theorem Silent.emissions_visits (hg : g.Silent) : g.emissions o options o.visits s =
    (g.visit o options .finish (g.after o options o.stops s)).1 := by
  rw [Ontology.visits_eq, emissions_append, hg.emissions_stops]
  simp [emissions]

/-- All that a run writes if nothing refuses it. -/
def output (g : Generator σ) (o : Ontology) (options : GenerationOptions) (s : σ) : List Emission :=
  if g.isRequired o then g.emissions o options o.visits s else []

/-- The summary of a run that nothing refuses. -/
def summary (g : Generator σ) (o : Ontology) (options : GenerationOptions) (s : σ) : Report :=
  if g.isRequired o then g.reported o options o.visits s (.new g.name)
  else { Report.new g.name with skipped := true }

/-- A run that nothing refuses writes all its emissions. -/
theorem execute_of_output_ok (h : options.Allow o)
    (hwrite : w.writeAll (g.output o options s) k = (.ok (), k')) :
    (g.execute o options w s k).outcome = .ok (g.summary o options s) ∧
      (g.execute o options w s k).sink = k' := by
  unfold output at hwrite
  unfold summary
  split at hwrite
  next hrequired =>
    rw [execute_of_writeAll_ok h hrequired hwrite, if_pos hrequired]
    exact ⟨rfl, rfl⟩
  next hidle =>
    rw [execute_of_idle h (by simpa using hidle), if_neg hidle]
    cases hwrite
    exact ⟨rfl, rfl⟩

/-- Runs one after another write the emissions of each in turn. -/
theorem executeAll_of_output_ok (h : options.Allow o) {gs : List (Generator σ × σ)}
    (hwrite : w.writeAll (gs.flatMap fun g => g.1.output o options g.2) k = (.ok (), k')) :
    executeAll o options w gs k = (.ok (gs.map fun g => g.1.summary o options g.2), k') := by
  induction gs generalizing k with
  | nil => cases hwrite; rfl
  | cons g gs ih =>
    rw [List.flatMap_cons] at hwrite
    obtain ⟨between, hfirst⟩ := Writer.exists_writeAll_of_prefix hwrite (List.prefix_append _ _)
    rw [Writer.writeAll_append_of_ok hfirst] at hwrite
    obtain ⟨houtcome, hsink⟩ := execute_of_output_ok h hfirst
    rw [executeAll, houtcome, hsink]
    simp only [ih hwrite]
    rfl

end Generator

namespace Backend

/-- What the names of the modules of a backend end in. -/
def suffix : Backend → String
  | .dataModel => "typeset"
  | .decodingRules => "decoder"
  | .instanceChecks => "validator"
  | .packageRoot => ""

/-- The last two characters of a text, from its end. -/
def ending (s : String) : List Char := s.toList.reverse.take 2

/-- A module name ends as its suffix does. -/
theorem ending_moduleName {package suffix : String} (h : 2 ≤ suffix.toList.length) :
    ending (Naming.moduleName package suffix) = ending suffix := by
  rw [ending, Naming.moduleName, String.toList_append, String.toList_append, ← List.append_assoc,
    List.reverse_append, List.take_append_of_le_length (by simpa using h), ending]

/-- A suffix has at least two characters. -/
theorem two_le_length_suffix {b : Backend} (hb : b ≠ .packageRoot) : 2 ≤ b.suffix.toList.length := by
  cases b with
  | packageRoot => exact absurd rfl hb
  | dataModel => decide
  | decodingRules => decide
  | instanceChecks => decide

/-- The name of a module tells the backend. -/
theorem eq_of_moduleName_eq {b b' : Backend} (hb : b ≠ .packageRoot) (hb' : b' ≠ .packageRoot)
    {package package' : String} (h : Naming.moduleName package b.suffix = Naming.moduleName package' b'.suffix) :
    b = b' := by
  have hending := congrArg ending h
  rw [ending_moduleName (two_le_length_suffix hb), ending_moduleName (two_le_length_suffix hb')] at hending
  revert hending hb hb'
  cases b <;> cases b' <;> decide

/-- No module is named as the root module is. -/
theorem moduleName_ne_init {b : Backend} (hb : b ≠ .packageRoot) {package : String} :
    Naming.moduleName package b.suffix ≠ "__init__" := by
  intro h
  have hending := congrArg ending h
  rw [ending_moduleName (two_le_length_suffix hb)] at hending
  revert hending hb
  cases b <;> decide

/-- Every backend waits for the end of a walk. -/
theorem silent (b : Backend) : b.generator.Silent := by
  intro o options v d hv
  cases b with
  | dataModel =>
    simp only [generator, DataModel.generator, DataModel.visit]
    split <;> first | rfl | exact absurd rfl hv
  | decodingRules =>
    simp only [generator, DecodingRules.generator, DecodingRules.visit]
    split <;> first | rfl | (split <;> rfl) | exact absurd rfl hv
  | instanceChecks =>
    simp only [generator, InstanceChecks.generator, InstanceChecks.visit]
    split <;> first | rfl | (split <;> rfl) | exact absurd rfl hv
  | packageRoot =>
    simp only [generator, PackageRoot.generator, PackageRoot.visit]
    split <;> first | rfl | (split <;> rfl) | exact absurd rfl hv

/-- What a backend has gathered when a walk comes to its end. -/
def draft (b : Backend) (o : Ontology) (options : GenerationOptions) : Draft :=
  b.generator.after o options o.stops .empty

/-- The modules of a draft are gathered stop by stop. -/
theorem modules_draft (b : Backend) (o : Ontology) (options : GenerationOptions) :
    (b.draft o options).modules = b.modules o := by
  have hafter (stops : List Visit) (hstops : ∀ v ∈ stops, v ≠ .finish) (d : Draft) :
      (b.generator.after o options stops d).modules = stops.foldl (b.gather o) d.modules := by
    induction stops generalizing d with
    | nil => rfl
    | cons v stops ih =>
      obtain ⟨hv, hrest⟩ := List.forall_mem_cons.mp hstops
      rw [List.foldl_cons, ← modules_visit hv d]
      exact ih hrest _
  exact hafter o.stops (fun _ => Ontology.ne_finish_of_mem_stops) .empty

/-- A backend emits what its last stop makes of what it has gathered. -/
theorem emissions_eq (b : Backend) (o : Ontology) (options : GenerationOptions) :
    b.generator.emissions o options o.visits .empty =
      (b.generator.visit o options .finish (b.draft o options)).1 := b.silent.emissions_visits

end Backend

end OntologyCompiler
