import OntologyCompiler.Proofs.Generation.Drafts

/-!
# One backend, many runs

A backend may run again on the state that its last run has left. What it gathers for one ontology must not be seen in
the next run, whatever has ended the last one. The root module clears its listing when a run starts. The other backends
hand over their modules when a run comes to its end, and do not clear them at the start, so a run that breaks off
between would leave modules behind. No run does: one that is refused or skipped has gathered nothing, and as backends
are silent until the end, the first write to be refused comes after the modules were handed over. So every run leaves
the state at rest, and from a state at rest a backend answers as a fresh one does.
-/

namespace OntologyCompiler

/-- A call of a backend: an ontology, options, and a writer in some state. -/
structure Request where
  ontology : Ontology
  options : GenerationOptions
  Sink : Type
  writer : Writer Sink
  sink : Sink

/-- What a call shows: how it ends, the state of the writer, and what the writer was offered and has taken. -/
structure Answer where
  outcome : Except CompileError Report
  Sink : Type
  sink : Sink
  offers : List Offer

namespace Generator

variable {σ ω : Type} (g : Generator σ)

/-- The answer to a request in a state. -/
def answer (r : Request) (s : σ) : Answer :=
  let run := g.watch r.ontology r.options r.writer s r.sink
  ⟨run.outcome, r.Sink, run.sink.1, run.sink.2⟩

/-- The answers to requests one after another, each in the state that the run before has left. -/
def session : List Request → σ → List Answer
  | [], _ => []
  | r :: rest, s =>
    g.answer r s :: session rest (g.execute r.ontology r.options r.writer s r.sink).state

variable {g} {o : Ontology} {options : GenerationOptions} {w : Writer ω} {s s' : σ} {k : ω}

/-- States that cannot be told apart at the start of a walk cannot be told apart by a run. -/
theorem execute_eq_of_start (h : g.visit o options .start s = g.visit o options .start s') :
    (g.execute o options w s k).outcome = (g.execute o options w s' k).outcome ∧
      (g.execute o options w s k).sink = (g.execute o options w s' k).sink := by
  have hwalk : g.walk o options w o.visits (.new g.name) s k = g.walk o options w o.visits (.new g.name) s' k := by
    change g.walk o options w (.start :: _) _ _ _ = g.walk o options w (.start :: _) _ _ _
    rw [walk, walk, h]
  simp only [execute, hwalk]
  split_ifs
  · exact ⟨rfl, rfl⟩
  · exact ⟨rfl, rfl⟩
  · exact ⟨rfl, rfl⟩

/-- States that cannot be told apart at the start of a walk give the same answer. -/
theorem answer_eq_of_start {r : Request}
    (h : g.visit r.ontology r.options .start s = g.visit r.ontology r.options .start s') :
    g.answer r s = g.answer r s' := by
  have hlogged : g.recording.visit r.ontology r.options .start (s, []) =
      g.recording.visit r.ontology r.options .start (s', []) := by
    simp only [recording, h]
  obtain ⟨houtcome, hsink⟩ := execute_eq_of_start (w := r.writer.recording) (k := (r.sink, [])) hlogged
  simp only [answer, watch, houtcome, hsink]

/-- A silent backend comes to the end of a walk, whether its emissions are then accepted or not. -/
theorem Silent.state_walk (hg : g.Silent) (r : Report) : (g.walk o options w o.visits r s k).state =
    (g.visit o options .finish (g.after o options o.stops s)).2 := by
  have hnothing : w.writeAll (g.emissions o options o.stops s) k = (.ok (), k) := by
    rw [hg.emissions_stops]
    rfl
  rw [Ontology.visits_eq, walk_of_writeAll_ok hnothing, walk]
  split <;> rfl

end Generator

namespace Backend

variable {b : Backend} {o : Ontology} {options : GenerationOptions} {d : Draft}

/-- What a backend has no use for is empty: the root module gathers no modules, the others no listing. -/
def Spare (b : Backend) (d : Draft) : Prop :=
  match b with
  | .packageRoot => d.modules = ∅
  | _ => d.listing = []

/-- Between runs there are no modules, and no listing except what the root module will clear. -/
structure AtRest (b : Backend) (d : Draft) : Prop where
  spare : b.Spare d
  modules : d.modules = ∅

/-- Every stop leaves empty what the backend has no use for. -/
theorem spare_visit (h : b.Spare d) (v : Visit) : b.Spare (b.generator.visit o options v d).2 := by
  cases b with
  | dataModel =>
    simp only [generator, DataModel.generator, DataModel.visit]
    split <;> exact h
  | decodingRules =>
    simp only [generator, DecodingRules.generator, DecodingRules.visit]
    split <;> first | exact h | (split <;> exact h)
  | instanceChecks =>
    simp only [generator, InstanceChecks.generator, InstanceChecks.visit]
    split <;> first | exact h | (split <;> exact h)
  | packageRoot =>
    simp only [generator, PackageRoot.generator, PackageRoot.visit]
    split <;> first | exact h | (split <;> exact h)

/-- A walk leaves empty what the backend has no use for. -/
theorem spare_after (h : b.Spare d) (stops : List Visit) : b.Spare (b.generator.after o options stops d) := by
  induction stops generalizing d with
  | nil => exact h
  | cons v stops ih => exact ih (spare_visit h v)

/-- The end of a walk hands over the modules. -/
theorem atRest_finish (h : b.Spare d) : b.AtRest (b.generator.visit o options .finish d).2 where
  spare := spare_visit h .finish
  modules := by
    cases b with
    | dataModel => rfl
    | decodingRules => rfl
    | instanceChecks => rfl
    | packageRoot => exact h

/-- A fresh backend is at rest. -/
theorem atRest_empty (b : Backend) : b.AtRest .empty := by
  cases b <;> exact ⟨rfl, rfl⟩

/-- From rest a walk starts as it does from a fresh state. -/
theorem visit_start_eq (h : b.AtRest d) :
    b.generator.visit o options .start d = b.generator.visit o options .start .empty := by
  obtain ⟨modules, listing⟩ := d
  obtain ⟨hspare, rfl⟩ := h
  cases b with
  | dataModel => obtain rfl : listing = [] := hspare; rfl
  | decodingRules => obtain rfl : listing = [] := hspare; rfl
  | instanceChecks => obtain rfl : listing = [] := hspare; rfl
  | packageRoot => rfl

/-- Every run leaves the state at rest. -/
theorem atRest_execute {ω : Type} {w : Writer ω} {k : ω} (h : b.AtRest d) :
    b.AtRest (b.generator.execute o options w d k).state := by
  simp only [Generator.execute]
  split_ifs
  · exact h
  · exact h
  · rw [b.silent.state_walk]
    exact atRest_finish (spare_after h.spare o.stops)

/-- From rest all requests are answered as by fresh backends. -/
theorem session_of_atRest (h : b.AtRest d) (requests : List Request) :
    b.generator.session requests d = requests.map fun r => b.generator.answer r .empty := by
  induction requests generalizing d with
  | nil => rfl
  | cons r rest ih =>
    rw [Generator.session, List.map_cons, Generator.answer_eq_of_start (visit_start_eq h), ih (atRest_execute h)]

/-- A backend that runs many times, whatever ends its runs, answers every request as a fresh one does. -/
theorem session_eq_fresh (b : Backend) (requests : List Request) :
    b.generator.session requests .empty = requests.map fun r => b.generator.answer r .empty :=
  session_of_atRest b.atRest_empty requests

end Backend

end OntologyCompiler
