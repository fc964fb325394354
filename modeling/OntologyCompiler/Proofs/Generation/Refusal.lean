import OntologyCompiler.CommandLine.Program
import OntologyCompiler.Proofs.Generation.Parallel

/-!
# Refused generation

The generating program can end early: the arguments, the configuration, the schema, its problems, its build and the
language stand before the backends. Unresolved references under strict options are left to the backends, each of which
looks for itself. They all look at the same ontology, so either every backend is refused before its first step or none
is, and then a backend fails only by a write that the file system refuses. So if there is any other reason for which
the program fails, no backend has taken a step, whatever the schedule, and the file tree is as it was.
-/

namespace OntologyCompiler

section Schedules

variable {σ ω : Type} {o : Ontology} {options : GenerationOptions} {w : Writer ω} {jobs jobs' : List (Job σ)}
  {k k' k'' : ω} {log : List (Nat × Offer)} {failure : CompileError}

/-- Backends that have ended take no steps. -/
theorem Together.eq_of_ended (h : Together o options w jobs k log jobs' k')
    (hended : ∀ j ∈ jobs, ∃ outcome, j = .ended outcome) : log = [] ∧ jobs' = jobs ∧ k' = k := by
  induction h with
  | start => exact ⟨rfl, rfl, rfl⟩
  | step _ hj hstep ih =>
    obtain ⟨-, rfl, -⟩ := ih
    obtain ⟨outcome, rfl⟩ := hended _ (List.mem_of_getElem? hj)
    cases hstep

/-- A backend that had not failed at the start has failed by a refused write of its own. -/
theorem Together.exists_refused (h : Together o options w jobs k log jobs' k')
    (hstart : ∀ j ∈ jobs, ∀ failure, j ≠ .ended (.error failure)) {n : Nat}
    (hn : jobs'[n]? = some (.ended (.error failure))) : ∃ e, (n, ⟨e, false⟩) ∈ log := by
  induction h with
  | start => exact absurd rfl (hstart _ (List.mem_of_getElem? hn) failure)
  | @step jobs' k' k'' log i j j' offer _ hj hstep ih =>
    by_cases hi : i = n
    · subst hi
      rw [List.getElem?_set_self (List.getElem?_eq_some_iff.mp hj).1] at hn
      cases hn
      cases hstep with
      | refused g s r e => exact ⟨e, List.mem_append_right _ (List.mem_singleton_self _)⟩
    · rw [List.getElem?_set_ne hi] at hn
      obtain ⟨e, he⟩ := ih hn
      exact ⟨e, List.mem_append_left _ he⟩

/-- A backend that goes on writing what its last call emitted fails at the write that is refused. -/
theorem Leads.refuse_write (h : Leads o options w jobs k jobs' k') {i : Nat} {g : Generator σ} {s : σ} {r : Report}
    {pending : List Emission} {stops : List Visit} (hj : jobs'[i]? = some (.running g s r pending stops))
    (hwrite : w.writeAll pending k' = (.error failure, k'')) :
    ∃ log, Together o options w jobs k log (jobs'.set i (.ended (.error failure))) k'' := by
  induction pending generalizing jobs' k' r with
  | nil => cases hwrite
  | cons e pending ih =>
    rw [Writer.writeAll] at hwrite
    split at hwrite
    next k₁ haccepted =>
      have hi : i < jobs'.length := (List.getElem?_eq_some_iff.mp hj).1
      have hnext := ih (h.step hj (.accepted g s r e pending stops k' k₁ haccepted) (by simp))
        (List.getElem?_set_self hi) hwrite
      rwa [List.set_set] at hnext
    next k₁ hrefused =>
      cases hwrite
      obtain ⟨log, -, htogether⟩ := h
      exact ⟨_, htogether.step hj (.refused g s r e pending stops k' _ _ hrefused)⟩

/-- A running backend that goes on alone fails at the first of its writes that is refused. -/
theorem Leads.refuse_running (h : Leads o options w jobs k jobs' k') {i : Nat} {g : Generator σ} {s : σ} {r : Report}
    {pending : List Emission} {stops : List Visit} (hj : jobs'[i]? = some (.running g s r pending stops))
    (hwrite : w.writeAll (pending ++ g.emissions o options stops s) k' = (.error failure, k'')) :
    ∃ log, Together o options w jobs k log (jobs'.set i (.ended (.error failure))) k'' := by
  have hi : i < jobs'.length := (List.getElem?_eq_some_iff.mp hj).1
  induction stops generalizing jobs' k' s r pending with
  | nil =>
    rw [Generator.emissions, List.append_nil] at hwrite
    exact h.refuse_write hj hwrite
  | cons v stops ih =>
    rcases hpending : w.writeAll pending k' with ⟨outcome, between⟩
    cases outcome with
    | error failure' =>
      rw [Writer.writeAll_append_of_error hpending] at hwrite
      cases hwrite
      exact h.refuse_write hj hpending
    | ok done =>
      rw [Writer.writeAll_append_of_ok hpending] at hwrite
      have hcalled := (h.write hj hpending).step (List.getElem?_set_self hi) (.call _ _ _ _ _ _) (by simp)
      rw [List.set_set] at hcalled
      have hended := ih hcalled (List.getElem?_set_self hi) hwrite (by simpa using hi)
      rwa [List.set_set] at hended

/-- Of backends that go on one after another one fails, if not all of their emissions are accepted. -/
theorem Leads.refuse_all {before rest : List (Job σ)} (h : Leads o options w jobs k (before ++ rest) k')
    (hwrite : w.writeAll (rest.flatMap (Job.remaining o options)) k' = (.error failure, k'')) :
    ∃ (log : List (Nat × Offer)) (jobs' : List (Job σ)) (n : Nat),
      Together o options w jobs k log jobs' k'' ∧ jobs'[n]? = some (.ended (.error failure)) := by
  induction rest generalizing before k' with
  | nil => cases hwrite
  | cons j rest ih =>
    rw [List.flatMap_cons] at hwrite
    have hj : (before ++ j :: rest)[before.length]? = some j := by simp
    rcases hfirst : w.writeAll (j.remaining o options) k' with ⟨outcome, between⟩
    cases outcome with
    | error failure' =>
      rw [Writer.writeAll_append_of_error hfirst] at hwrite
      cases hwrite
      cases j with
      | ended outcome => cases hfirst
      | running g s r pending stops =>
        obtain ⟨log, htogether⟩ := h.refuse_running hj hfirst
        exact ⟨log, _, before.length, htogether, List.getElem?_set_self (by simp)⟩
    | ok done =>
      rw [Writer.writeAll_append_of_ok hfirst] at hwrite
      have hended := h.finish hj hfirst
      rw [List.set_append_right _ _ (Nat.le_refl _), Nat.sub_self, List.set_cons_zero, ← List.singleton_append,
        ← List.append_assoc] at hended
      exact ih hended hwrite

end Schedules

namespace Generator

/-- One failure is the failure of one backend. -/
theorem exists_of_collect_error {outcomes : List (Except CompileError Report)} {failure : CompileError}
    (h : collect outcomes = .error failure) : ∃ n : Nat, outcomes[n]? = some (.error failure) := by
  induction outcomes with
  | nil => cases h
  | cons outcome outcomes ih =>
    cases outcome with
    | error first => cases h; exact ⟨0, rfl⟩
    | ok report =>
      rw [collect] at h
      rcases hrest : collect outcomes with failure' | reports
      · rw [hrest] at h
        cases h
        obtain ⟨n, hn⟩ := ih hrest
        exact ⟨n + 1, hn⟩
      · rw [hrest] at h
        cases h

/-- Summaries are collected from backends that have all ended well. -/
theorem eq_map_ok_of_collect {outcomes : List (Except CompileError Report)} {reports : List Report}
    (h : collect outcomes = .ok reports) : outcomes = reports.map .ok := by
  induction outcomes generalizing reports with
  | nil => cases h; rfl
  | cons outcome outcomes ih =>
    cases outcome with
    | error first => cases h
    | ok report =>
      rw [collect] at h
      rcases hrest : collect outcomes with failure | others
      · rw [hrest] at h
        cases h
      · rw [hrest] at h
        cases h
        rw [ih hrest]
        rfl

end Generator

namespace Program

/-- What is to be generated when nothing stands in the way: an ontology, with options and backends, and what has been
printed by then. -/
structure Commission where
  ontology : Ontology
  options : GenerationOptions
  backends : List Backend
  output : String

namespace Commission

variable (c : Commission)

/-- The backends before their first steps. -/
def jobs : List (Job Draft) := (c.backends.map Backend.fresh).map (Job.start c.ontology c.options)

/-- The text that follows when all backends have ended well. -/
def closing (reports : List Report) : String :=
  let last := "✅ Generated " ++ c.ontology.name ++ " v" ++ c.ontology.version ++ " (" ++ c.options.language ++
    ") into " ++ c.options.outputDirectory
  Text.closeLines ((reports.map fun r => "  ✅ " ++ r.render) ++ [last])

/-- The plan of running the backends one after another. -/
def plan : Plan :=
  match Generator.executeAll c.ontology c.options .memory (c.backends.map Backend.fresh) [] with
  | (.error failure, _) => .finished (.failed c.output "" failure)
  | (.ok reports, emissions) => .emitting c.output c.options.outputDirectory emissions (c.closing reports)

end Commission

/-- What is to be generated from a schema, or how the program ends before. -/
def commissionFrom (s : Schema) (options : GenerationOptions) (output : String) : Except Outcome Commission :=
  match s.build with
  | .error failure => .error (.failed output "" failure)
  | .ok o =>
    let output := output ++ Diagnostics.render o.diagnostics
    match Backend.forLanguage options.language with
    | .error failure => .error (.failed output "" failure)
    | .ok backends => .ok ⟨o, options, backends, output⟩

/-- What the generating program is to generate, or how it ends before. -/
def commission (arguments : List String) (around : Surroundings) : Except Outcome Commission :=
  match Invocation.read? .generate arguments with
  | none => .error .misused
  | some i =>
    match i.configuration around with
    | .error failure => .error (.failed "" "loading configuration: " failure)
    | .ok c =>
      let directory := i.schemaDirectory c
      let output := "🔍 Loading " ++ i.schema ++ " " ++ i.version ++ " from " ++ directory ++ "\n"
      match SchemaDirectory.load around.tree directory i.schema i.version with
      | .error failure => .error (.failed output "" failure)
      | .ok s =>
        if s.problems.isEmpty then commissionFrom s (i.options c) output
        else .error ⟨1, output ++ problemText s.problems, ""⟩

/-- A schema is generated from by running the backends, unless something stands in the way. -/
theorem generateFrom_eq (s : Schema) (options : GenerationOptions) (output : String) :
    generateFrom s options output =
      match commissionFrom s options output with
      | .error outcome => .finished outcome
      | .ok c => c.plan := by
  unfold generateFrom commissionFrom
  cases s.build with
  | error failure => rfl
  | ok o =>
    cases Backend.forLanguage options.language with
    | error failure => rfl
    | ok backends =>
      simp only [Commission.plan, bind, Except.bind]
      rcases Generator.executeAll o options .memory (backends.map Backend.fresh) [] with ⟨outcome, emissions⟩
      cases outcome <;> rfl

/-- The generating program runs the backends, unless something stands in the way. -/
theorem run_generate_eq (arguments : List String) (around : Surroundings) :
    run .generate arguments around =
      match commission arguments around with
      | .error outcome => (outcome, around.tree)
      | .ok c => c.plan.carryOut around.tree := by
  unfold run commission
  cases Invocation.read? .generate arguments with
  | none => rfl
  | some i =>
    dsimp only [plan, generatePlan]
    cases i.configuration around with
    | error failure => rfl
    | ok c =>
      dsimp only
      cases SchemaDirectory.load around.tree (i.schemaDirectory c) i.schema i.version with
      | error failure => rfl
      | ok s =>
        dsimp only
        split
        · rw [generateFrom_eq]
          split <;> rfl
        · rfl

/-- The runs of the generating program, with the backends running side by side on the file tree: what they have offered
to it, which of them has failed if one has, the outcome, and the tree in the end. The program may end as soon as one
backend has failed, whatever the others have done by then. -/
inductive Generates (arguments : List String) (around : Surroundings) :
    List (Nat × Offer) → Option Nat → Outcome → FileTree → Prop
  | stopped {outcome : Outcome} : commission arguments around = .error outcome →
    Generates arguments around [] none outcome around.tree
  | failed {c : Commission} {log : List (Nat × Offer)} {jobs : List (Job Draft)} {n : Nat} {failure : CompileError}
    {t : FileTree} : commission arguments around = .ok c →
    Together c.ontology c.options (.files c.options.outputDirectory) c.jobs around.tree log jobs t →
    jobs[n]? = some (.ended (.error failure)) →
    Generates arguments around log (some n) (.failed c.output "" failure) t
  | generated {c : Commission} {log : List (Nat × Offer)} {reports : List Report} {t : FileTree} :
    commission arguments around = .ok c →
    Together c.ontology c.options (.files c.options.outputDirectory) c.jobs around.tree log
      (reports.map fun r => .ended (.ok r)) t →
    Generates arguments around log none ⟨0, c.output ++ c.closing reports, ""⟩ t

/-- Unless a write is refused, a run that fails leaves everything as it was. -/
structure RefusesCleanly (arguments : List String) (around : Surroundings) : Prop where
  /-- The run of the program with one backend after another is one of its runs. -/
  sequential : ∃ log failed, Generates arguments around log failed (run .generate arguments around).1
    (run .generate arguments around).2
  /-- A run that fails without a refused write of the failed backend has offered nothing to the file tree. -/
  untouched : ∀ log failed outcome t, Generates arguments around log failed outcome t → outcome.code ≠ 0 →
    (∀ n ∈ failed, ∀ x ∈ log, x.1 = n → x.2.taken = true) → log = [] ∧ t = around.tree

section Runs

variable {arguments : List String} {around : Surroundings} {c : Commission}

/-- Either all backends are refused before their first steps, or none is. -/
theorem Commission.ended_of_refused (h : Generator.Refused c.ontology c.options) :
    ∀ j ∈ c.jobs, ∃ outcome, j = .ended outcome := by
  intro j hj
  obtain ⟨g, -, rfl⟩ := List.mem_map.mp hj
  exact ⟨_, if_pos h⟩

/-- Backends that are not refused have not failed at the start. -/
theorem Commission.not_failed_of_not_refused (h : ¬ Generator.Refused c.ontology c.options) :
    ∀ j ∈ c.jobs, ∀ failure, j ≠ .ended (.error failure) := by
  rintro j hj failure rfl
  obtain ⟨g, -, hg⟩ := List.mem_map.mp hj
  rw [Job.start, if_neg h] at hg
  split at hg <;> cases hg

/-- Backends that run one after another are backends that run side by side. -/
theorem Commission.generates_plan (h : commission arguments around = .ok c) : ∃ log failed,
    Generates arguments around log failed (c.plan.carryOut around.tree).1 (c.plan.carryOut around.tree).2 := by
  let verdicts := (c.backends.map Backend.fresh).map fun g => g.1.verdict c.ontology c.options g.2
  let written := (c.backends.map Backend.fresh).flatMap fun g => g.1.written c.ontology c.options g.2
  have hverdicts : c.jobs.map (Job.verdict c.ontology c.options) = verdicts := by
    simp only [Commission.jobs, verdicts, List.map_map]
    exact List.map_congr_left fun b _ => Job.verdict_start _
  have hwritten : c.jobs.flatMap (Job.remaining c.ontology c.options) = written := by
    simp only [Commission.jobs, written, List.flatMap_map, Job.remaining_start]
  have hrun : Generator.executeAll c.ontology c.options .memory (c.backends.map Backend.fresh) [] =
      (Generator.collect verdicts, written) :=
    Generator.executeAll_of_written_ok (Writer.writeAll_memory _ _)
  have hstart (t : FileTree) : Leads c.ontology c.options (.files c.options.outputDirectory) c.jobs t ([] ++ c.jobs) t :=
    ⟨[], nofun, .start⟩
  rw [Commission.plan, hrun]
  cases hcollected : Generator.collect verdicts with
  | error failure =>
    -- only a backend that is refused fails when every write is accepted
    obtain ⟨n, hn⟩ := Generator.exists_of_collect_error hcollected
    rw [← hverdicts, List.getElem?_map] at hn
    obtain ⟨j, hj, hverdict⟩ := Option.map_eq_some_iff.mp hn
    cases j with
    | running g s r pending stops => cases hverdict
    | ended outcome =>
      obtain rfl : outcome = .error failure := hverdict
      exact ⟨[], some n, .failed h .start hj⟩
  | ok reports =>
    have hall := Generator.eq_map_ok_of_collect hcollected
    simp only [Plan.carryOut]
    rcases hfiles : (Writer.files c.options.outputDirectory).writeAll written around.tree with ⟨outcome, t⟩
    cases outcome with
    | error failure =>
      obtain ⟨log, jobs, n, htogether, hn⟩ := (hstart around.tree).refuse_all (hwritten ▸ hfiles)
      exact ⟨log, some n, .failed h htogether hn⟩
    | ok done =>
      obtain ⟨log, -, htogether⟩ := (hstart around.tree).finish_all (hwritten ▸ hfiles)
      refine ⟨log, none, .generated h ?_⟩
      have hended : c.jobs.map (fun j => .ended (j.verdict c.ontology c.options)) =
          reports.map fun r => (.ended (.ok r) : Job Draft) := by
        have hmap := congrArg (List.map (@Job.ended Draft)) (hverdicts.trans hall)
        rwa [List.map_map, List.map_map] at hmap
      rwa [List.nil_append, hended] at htogether

end Runs

/-- A generation that is refused for any other reason than a refused write writes nothing, whatever the arguments, the
configuration and the schemas, and whatever the schedule of the backends. -/
theorem refuses_cleanly (arguments : List String) (around : Surroundings) : RefusesCleanly arguments around where
  sequential := by
    rw [run_generate_eq]
    cases h : commission arguments around with
    | error outcome => exact ⟨[], none, .stopped h⟩
    | ok c => exact Commission.generates_plan h
  untouched := by
    intro log failed outcome t hrun hcode hwrites
    cases hrun with
    | stopped h => exact ⟨rfl, rfl⟩
    | generated h htogether => exact absurd rfl hcode
    | @failed c log jobs n failure t h htogether hn =>
      by_cases hrefused : Generator.Refused c.ontology c.options
      · obtain ⟨hlog, -, htree⟩ := htogether.eq_of_ended (Commission.ended_of_refused hrefused)
        exact ⟨hlog, htree⟩
      · obtain ⟨e, he⟩ := htogether.exists_refused (Commission.not_failed_of_not_refused hrefused) hn
        exact absurd (hwrites n rfl _ he rfl) Bool.false_ne_true

/-- Where there are no schemas the program fails and writes nothing. -/
example : (run .generate ["-s", "harbor"] ⟨⟨∅, []⟩, [], none⟩).1.code = 1 ∧
    (run .generate ["-s", "harbor"] ⟨⟨∅, []⟩, [], none⟩).2 = ⟨∅, []⟩ := by
  decide +kernel

end Program

end OntologyCompiler
