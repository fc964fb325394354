import OntologyCompiler.Proofs.Generation.Drafts

/-!
# Backends side by side

Several backends run over one ontology on one writer, and any of them may take the next step: a call, one
write, or its end. A backend does not see what the writer holds, so whichever order the steps come in, each
backend emits what it emits alone and ends as it ends alone. The writer sees an interleaving.
-/

namespace OntologyCompiler

namespace Generator

variable {σ ω : Type}

/-- The outcomes of several runs as one: the first failure, or all summaries. -/
def collect : List (Except CompileError Report) → Except CompileError (List Report)
  | [] => .ok []
  | .error failure :: _ => .error failure
  | .ok report :: rest => (collect rest).map (report :: ·)

/-- Summaries are collected. -/
theorem collect_map_ok (rs : List Report) : collect (rs.map .ok) = .ok rs := by
  induction rs with
  | nil => rfl
  | cons r rs ih => rw [List.map_cons, collect, ih]; rfl

/-- Strict options refuse an ontology with unresolved references. -/
def Refused (o : Ontology) (options : GenerationOptions) : Prop :=
  options.strictness = .strict ∧ 0 < o.diagnostics.unresolvedCount

instance (o : Ontology) (options : GenerationOptions) : Decidable (Refused o options) :=
  inferInstanceAs (Decidable (options.strictness = .strict ∧ 0 < o.diagnostics.unresolvedCount))

/-- All that a backend offers to a writer that accepts it. -/
def written (g : Generator σ) (o : Ontology) (options : GenerationOptions) (s : σ) : List Emission :=
  if Refused o options then [] else g.output o options s

/-- How a run ends on a writer that accepts all its emissions. -/
def verdict (g : Generator σ) (o : Ontology) (options : GenerationOptions) (s : σ) : Except CompileError Report :=
  if Refused o options then .error (.unresolvedReferences o.diagnostics.unresolvedCount)
  else .ok (g.summary o options s)

/-- What is not refused is allowed. -/
theorem allow_of_not_refused {o : Ontology} {options : GenerationOptions} (h : ¬ Refused o options) :
    options.Allow o := by
  intro hstrict
  by_contra hpos
  exact h ⟨hstrict, Nat.pos_of_ne_zero hpos⟩

/-- Runs one after another write the emissions of each in turn and end as each ends alone. -/
theorem executeAll_of_written_ok {o : Ontology} {options : GenerationOptions} {w : Writer ω} {k k' : ω}
    {gs : List (Generator σ × σ)}
    (hwrite : w.writeAll (gs.flatMap fun g => g.1.written o options g.2) k = (.ok (), k')) :
    executeAll o options w gs k = (collect (gs.map fun g => g.1.verdict o options g.2), k') := by
  by_cases hrefused : Refused o options
  · have hnothing : (gs.flatMap fun g => g.1.written o options g.2) = [] := by
      simp [written, hrefused]
    rw [hnothing] at hwrite
    cases hwrite
    cases gs with
    | nil => rfl
    | cons g gs =>
      rw [executeAll, execute_of_unresolved hrefused.1 hrefused.2, List.map_cons, verdict, if_pos hrefused]
      rfl
  · simp only [written, if_neg hrefused] at hwrite
    rw [executeAll_of_output_ok (allow_of_not_refused hrefused) hwrite]
    simp only [verdict, if_neg hrefused]
    rw [← collect_map_ok, List.map_map]
    rfl

end Generator

/-- A backend at work: its state, the summary so far, the emissions of its last call that it has not written
yet, and the stops before it. Or a backend that has ended. -/
inductive Job (σ : Type) where
  | running (g : Generator σ) (s : σ) (r : Report) (pending : List Emission) (stops : List Visit)
  | ended (outcome : Except CompileError Report)

namespace Job

variable {σ ω : Type} (o : Ontology) (options : GenerationOptions) (w : Writer ω)

/-- A backend before its first step. -/
def start (g : Generator σ × σ) : Job σ :=
  if Generator.Refused o options then .ended (.error (.unresolvedReferences o.diagnostics.unresolvedCount))
  else if g.1.isRequired o then .running g.1 g.2 (.new g.1.name) [] o.visits
  else .ended (.ok { Report.new g.1.name with skipped := true })

/-- One step of a backend: it is called at its next stop, offers its next emission, or ends. -/
inductive Step : Job σ → ω → Option Offer → Job σ → ω → Prop
  | call (g : Generator σ) (s : σ) (r : Report) (v : Visit) (stops : List Visit) (k : ω) :
    Step (.running g s r [] (v :: stops)) k none
      (.running g (g.visit o options v s).2 { r with visits := r.visits.add v } (g.visit o options v s).1 stops) k
  | accepted (g : Generator σ) (s : σ) (r : Report) (e : Emission) (pending : List Emission) (stops : List Visit)
      (k k' : ω) : w.write e k = (.ok (), k') →
    Step (.running g s r (e :: pending) stops) k (some ⟨e, true⟩)
      (.running g s { r with files := r.files ++ [e.path] } pending stops) k'
  | refused (g : Generator σ) (s : σ) (r : Report) (e : Emission) (pending : List Emission) (stops : List Visit)
      (k k' : ω) (failure : CompileError) : w.write e k = (.error failure, k') →
    Step (.running g s r (e :: pending) stops) k (some ⟨e, false⟩) (.ended (.error failure)) k'
  | finish (g : Generator σ) (s : σ) (r : Report) (k : ω) :
    Step (.running g s r [] []) k none (.ended (.ok r)) k

/-- What a backend still has to write. -/
def remaining : Job σ → List Emission
  | .running g s _ pending stops => pending ++ g.emissions o options stops s
  | .ended _ => []

/-- How a backend will end if all that it still has to write is accepted. -/
def verdict : Job σ → Except CompileError Report
  | .running g s r pending stops =>
    .ok { r with
      visits := stops.foldl VisitCounts.add r.visits
      files := r.files ++ (pending ++ g.emissions o options stops s).map Emission.path }
  | .ended outcome => outcome

variable {o options w}

/-- Before its first step a backend has all its emissions to write. -/
theorem remaining_start (g : Generator σ × σ) :
    (start o options g).remaining o options = g.1.written o options g.2 := by
  unfold start Generator.written Generator.output
  split
  · rfl
  · split <;> rfl

/-- Before its first step a backend will end as it ends alone. -/
theorem verdict_start (g : Generator σ × σ) : (start o options g).verdict o options = g.1.verdict o options g.2 := by
  unfold start Generator.verdict Generator.summary
  split
  · rfl
  · split <;> rfl

/-- A step that is not refused writes the next of what remains and does not change how the backend will end. -/
theorem Step.keeps {j j' : Job σ} {k k' : ω} {offer : Option Offer} (h : Step o options w j k offer j' k')
    (hall : ∀ x ∈ offer, x.taken = true) :
    j.remaining o options = (offer.map Offer.emission).toList ++ j'.remaining o options ∧
      j'.verdict o options = j.verdict o options ∧
        w.writeAll (offer.map Offer.emission).toList k = (.ok (), k') := by
  cases h with
  | call g s r v stops => exact ⟨rfl, rfl, rfl⟩
  | accepted g s r e pending stops k k' hwrite =>
    refine ⟨rfl, ?_, ?_⟩
    · simp [verdict]
    · simp [Writer.writeAll, hwrite]
  | refused g s r e => cases hall ⟨e, false⟩ rfl
  | finish g s r => exact ⟨rfl, by simp [verdict, Generator.emissions], rfl⟩

end Job

section Together

variable {σ ω : Type} (o : Ontology) (options : GenerationOptions) (w : Writer ω)

/-- Backends take steps in any order. The log tells which of them offered which emission. -/
inductive Together (jobs : List (Job σ)) (k : ω) : List (Nat × Offer) → List (Job σ) → ω → Prop
  | start : Together jobs k [] jobs k
  | step {jobs' : List (Job σ)} {k' k'' : ω} {log : List (Nat × Offer)} {i : Nat} {j j' : Job σ}
      {offer : Option Offer} : Together jobs k log jobs' k' → jobs'[i]? = some j →
    Job.Step o options w j k' offer j' k'' →
    Together jobs k (log ++ (offer.map (i, ·)).toList) (jobs'.set i j') k''

/-- The emissions in a log. -/
def logged (log : List (Nat × Offer)) : List Emission := log.map fun x => x.2.emission

/-- The emissions that one backend offered. -/
def loggedBy (i : Nat) (log : List (Nat × Offer)) : List Emission := logged (log.filter fun x => x.1 = i)

/-- A run of several backends at once in which no write is refused: they all end, and the outcomes are
collected in their order. -/
def Completes (gs : List (Generator σ × σ)) (k : ω) (log : List (Nat × Offer))
    (outcome : Except CompileError (List Report)) (k' : ω) : Prop :=
  (∀ x ∈ log, x.2.taken = true) ∧ ∃ outcomes, outcome = Generator.collect outcomes ∧
    Together o options w (gs.map (Job.start o options)) k log (outcomes.map .ended) k'

variable {o options w} {jobs jobs' : List (Job σ)} {k k' : ω} {log : List (Nat × Offer)}

/-- The invariant of a run without refusal: each backend has written what it no longer has to, and will end as
before; the writer has been given the log. -/
structure Keeps (o : Ontology) (options : GenerationOptions) (w : Writer ω) (jobs : List (Job σ)) (k : ω)
    (log : List (Nat × Offer)) (jobs' : List (Job σ)) (k' : ω) : Prop where
  length_eq : jobs'.length = jobs.length
  lt : ∀ x ∈ log, x.1 < jobs.length
  written : w.writeAll (logged log) k = (.ok (), k')
  remaining : ∀ (i : Nat) (j j' : Job σ), jobs[i]? = some j → jobs'[i]? = some j' →
    j.remaining o options = loggedBy i log ++ j'.remaining o options
  verdict : ∀ (i : Nat) (j j' : Job σ), jobs[i]? = some j → jobs'[i]? = some j' →
    j'.verdict o options = j.verdict o options

/-- Emissions are logged one part after the other. -/
theorem logged_append (log rest : List (Nat × Offer)) : logged (log ++ rest) = logged log ++ logged rest :=
  List.map_append

/-- A backend offers emissions one part after the other. -/
theorem loggedBy_append (i : Nat) (log rest : List (Nat × Offer)) :
    loggedBy i (log ++ rest) = loggedBy i log ++ loggedBy i rest := by
  rw [loggedBy, List.filter_append, logged_append]
  rfl

/-- What a step offers is logged under its backend only. -/
theorem loggedBy_toList (i i' : Nat) (offer : Option Offer) : loggedBy i (offer.map (i', ·)).toList =
    if i = i' then (offer.map Offer.emission).toList else [] := by
  cases offer with
  | none => simp [loggedBy, logged]
  | some offer =>
    by_cases h : i = i'
    · simp [loggedBy, logged, h]
    · simp [loggedBy, logged, h, Ne.symm h]

/-- The invariant holds before the first step. -/
theorem Keeps.start : Keeps o options w jobs k [] jobs k where
  length_eq := rfl
  lt := nofun
  written := rfl
  remaining := by
    intro i j j' hj hj'
    obtain rfl := Option.some.inj (hj.symm.trans hj')
    rfl
  verdict := by
    intro i j j' hj hj'
    obtain rfl := Option.some.inj (hj.symm.trans hj')
    rfl

/-- What is found in the jobs after a step of one of them. -/
theorem getElem?_set_step {i n : Nat} {j j' b : Job σ} (hj : jobs'[i]? = some j) (hb : (jobs'.set i j')[n]? = some b) :
    (n = i ∧ b = j') ∨ (n ≠ i ∧ jobs'[n]? = some b) := by
  by_cases hn : n = i
  · subst hn
    rw [List.getElem?_set_self (List.getElem?_eq_some_iff.mp hj).1] at hb
    exact .inl ⟨rfl, (Option.some.inj hb).symm⟩
  · rw [List.getElem?_set_ne (Ne.symm hn)] at hb
    exact .inr ⟨hn, hb⟩

/-- A step that is not refused keeps the invariant. -/
theorem Keeps.step {k'' : ω} {i : Nat} {j j' : Job σ} {offer : Option Offer} (h : Keeps o options w jobs k log jobs' k')
    (hj : jobs'[i]? = some j) (hstep : Job.Step o options w j k' offer j' k'') (hall : ∀ x ∈ offer, x.taken = true) :
    Keeps o options w jobs k (log ++ (offer.map (i, ·)).toList) (jobs'.set i j') k'' := by
  obtain ⟨hremaining, hverdict, hwritten⟩ := hstep.keeps hall
  exact {
    length_eq := by rw [List.length_set, h.length_eq]
    lt := by
      intro x hx
      rcases List.mem_append.mp hx with hx | hx
      · exact h.lt x hx
      · obtain ⟨y, -, rfl⟩ := Option.map_eq_some_iff.mp (Option.mem_toList.mp hx)
        exact h.length_eq ▸ (List.getElem?_eq_some_iff.mp hj).1
    written := by
      have hemission : logged (offer.map (i, ·)).toList = (offer.map Offer.emission).toList := by
        cases offer <;> rfl
      rw [logged_append, Writer.writeAll_append_of_ok h.written, hemission, hwritten]
    remaining := by
      intro n a b ha hb
      rw [loggedBy_append, loggedBy_toList]
      rcases getElem?_set_step hj hb with ⟨rfl, rfl⟩ | ⟨hn, hb⟩
      · rw [if_pos rfl, List.append_assoc, ← hremaining]
        exact h.remaining n a j ha hj
      · rw [if_neg hn, List.append_nil]
        exact h.remaining n a b ha hb
    verdict := by
      intro n a b ha hb
      rcases getElem?_set_step hj hb with ⟨rfl, rfl⟩ | ⟨-, hb⟩
      · exact hverdict.trans (h.verdict n a j ha hj)
      · exact h.verdict n a b ha hb }

/-- Steps that are not refused keep the invariant. -/
theorem Together.keeps (h : Together o options w jobs k log jobs' k') (hall : ∀ x ∈ log, x.2.taken = true) :
    Keeps o options w jobs k log jobs' k' := by
  induction h with
  | start => exact Keeps.start
  | step _ hj hstep ih =>
    obtain ⟨hlog, hoffer⟩ := List.forall_mem_append.mp hall
    refine (ih hlog).step hj hstep fun x hx => ?_
    exact hoffer _ (Option.mem_toList.mpr (Option.mem_map_of_mem _ hx))

/-- What one backend offers is part of what is offered, in its order. -/
theorem sublist_loggedBy (i : Nat) (log : List (Nat × Offer)) : (loggedBy i log).Sublist (logged log) :=
  List.filter_sublist.map _

/-- An item added to the list of one index is added to all of them. -/
theorem perm_flatMap_cons {α : Type} (f : Nat → List α) (a : α) {i : Nat} {is : List Nat} (hi : i ∈ is)
    (hnodup : is.Nodup) : (is.flatMap fun j => if j = i then a :: f j else f j).Perm (a :: is.flatMap f) := by
  induction is with
  | nil => cases hi
  | cons j is ih =>
    obtain ⟨hfresh, hrest⟩ := List.nodup_cons.mp hnodup
    rw [List.flatMap_cons, List.flatMap_cons]
    rcases List.mem_cons.mp hi with heq | hi
    · subst heq
      have hsame : (is.flatMap fun j => if j = i then a :: f j else f j) = is.flatMap f := by
        apply List.flatMap_congr
        intro j hj
        rw [if_neg fun heq : j = i => hfresh (heq ▸ hj)]
      rw [if_pos rfl, hsame, List.cons_append]
    · have hne : j ≠ i := fun heq => hfresh (heq ▸ hi)
      rw [if_neg hne]
      exact ((ih hi hrest).append_left (f j)).trans List.perm_middle

/-- A log is made of what its backends offered. -/
theorem perm_logged {is : List Nat} (hnodup : is.Nodup) {log : List (Nat × Offer)} (h : ∀ x ∈ log, x.1 ∈ is) :
    (is.flatMap fun i => loggedBy i log).Perm (logged log) := by
  induction log with
  | nil => simp [loggedBy, logged]
  | cons x log ih =>
    obtain ⟨hx, hlog⟩ := List.forall_mem_cons.mp h
    have hsplit (i : Nat) : loggedBy i (x :: log) =
        if i = x.1 then x.2.emission :: loggedBy i log else loggedBy i log := by
      by_cases hi : i = x.1
      · simp [loggedBy, logged, hi]
      · simp [loggedBy, logged, hi, Ne.symm hi]
    simp only [hsplit]
    exact (perm_flatMap_cons _ _ hx hnodup).trans ((ih hlog).cons _)

variable {gs : List (Generator σ × σ)} {outcome : Except CompileError (List Report)}

/-- What a run of several backends at once comes to if no write is refused. -/
structure Interleaves (o : Ontology) (options : GenerationOptions) (w : Writer ω) (gs : List (Generator σ × σ))
    (k : ω) (log : List (Nat × Offer)) (outcome : Except CompileError (List Report)) (k' : ω) : Prop where
  outcome_eq : outcome = Generator.collect (gs.map fun g => g.1.verdict o options g.2)
  written : w.writeAll (logged log) k = (.ok (), k')
  own : ∀ i g, gs[i]? = some g → loggedBy i log = g.1.written o options g.2
  perm : (logged log).Perm (gs.flatMap fun g => g.1.written o options g.2)

/-- Once all backends have ended, each has written what it writes alone and has ended as it ends alone. -/
theorem Keeps.loggedBy_eq {outcomes : List (Except CompileError Report)}
    (h : Keeps o options w (gs.map (Job.start o options)) k log (outcomes.map .ended) k') {i : Nat}
    {g : Generator σ × σ} (hg : gs[i]? = some g) :
    loggedBy i log = g.1.written o options g.2 ∧ outcomes[i]? = some (g.1.verdict o options g.2) := by
  have hlt : i < outcomes.length := by
    have hlength : outcomes.length = gs.length := by simpa using h.length_eq
    exact hlength ▸ (List.getElem?_eq_some_iff.mp hg).1
  have hstart : (gs.map (Job.start o options))[i]? = some (Job.start o options g) := by
    rw [List.getElem?_map, hg]
    rfl
  have hended : (outcomes.map Job.ended)[i]? = some (.ended outcomes[i] : Job σ) := by
    rw [List.getElem?_map, List.getElem?_eq_getElem hlt]
    rfl
  have hremaining := h.remaining i _ _ hstart hended
  have hverdict := h.verdict i _ _ hstart hended
  rw [Job.remaining_start, Job.remaining, List.append_nil] at hremaining
  rw [Job.verdict_start, Job.verdict] at hverdict
  exact ⟨hremaining.symm, by rw [List.getElem?_eq_getElem hlt, hverdict]⟩

/-- What each of several backends offered, in their order, is all that was offered. -/
theorem perm_flatMap_logged {α : Type} {items : List α} {offered : α → List Emission}
    (hlt : ∀ x ∈ log, x.1 < items.length) (hown : ∀ i a, items[i]? = some a → loggedBy i log = offered a) :
    (logged log).Perm (items.flatMap offered) := by
  have hindices : ∀ x ∈ log, x.1 ∈ items.zipIdx.map Prod.snd := by
    intro x hx
    simpa [List.zipIdx_map_snd] using hlt x hx
  have hnodup : (items.zipIdx.map Prod.snd).Nodup := by
    rw [List.zipIdx_map_snd]
    exact List.nodup_range'
  have hparts : (items.zipIdx.map Prod.snd).flatMap (fun i => loggedBy i log) = items.flatMap offered := by
    conv_rhs => rw [← List.zipIdx_map_fst 0 items, List.flatMap_map]
    rw [List.flatMap_map]
    apply List.flatMap_congr
    intro x hx
    exact hown x.2 x.1 (by simpa using List.mem_zipIdx_iff_getElem?.mp hx)
  exact hparts ▸ (perm_logged hnodup hindices).symm

/-- However the steps of several backends are interleaved, each writes what it writes alone and ends as it ends
alone. -/
theorem Completes.interleaves (h : Completes o options w gs k log outcome k') :
    Interleaves o options w gs k log outcome k' := by
  obtain ⟨hall, outcomes, rfl, htogether⟩ := h
  have hkeeps := htogether.keeps hall
  have hown (i : Nat) (g : Generator σ × σ) (hg : gs[i]? = some g) := (hkeeps.loggedBy_eq hg).1
  have houtcomes : outcomes = gs.map fun g => g.1.verdict o options g.2 := by
    apply List.ext_getElem?
    intro i
    rw [List.getElem?_map]
    cases hg : gs[i]? with
    | none =>
      have hlength : outcomes.length = gs.length := by simpa using hkeeps.length_eq
      exact List.getElem?_eq_none_iff.mpr (hlength ▸ List.getElem?_eq_none_iff.mp hg)
    | some g => exact (hkeeps.loggedBy_eq hg).2
  have hlt : ∀ x ∈ log, x.1 < gs.length := by simpa using hkeeps.lt
  exact ⟨congrArg Generator.collect houtcomes, hkeeps.written, hown, perm_flatMap_logged hlt hown⟩

end Together

section Existence

variable {σ ω : Type} {o : Ontology} {options : GenerationOptions} {w : Writer ω} {jobs jobs' : List (Job σ)}
  {k k' k'' : ω} {i : Nat}

/-- Steps without refusal lead from some jobs to others. -/
def Leads (o : Ontology) (options : GenerationOptions) (w : Writer ω) (jobs : List (Job σ)) (k : ω)
    (jobs' : List (Job σ)) (k' : ω) : Prop :=
  ∃ log, (∀ x ∈ log, x.2.taken = true) ∧ Together o options w jobs k log jobs' k'

/-- One more step that is not refused. -/
theorem Leads.step (h : Leads o options w jobs k jobs' k') {j j' : Job σ} {offer : Option Offer}
    (hj : jobs'[i]? = some j) (hstep : Job.Step o options w j k' offer j' k'')
    (hoffer : ∀ x ∈ offer, x.taken = true) : Leads o options w jobs k (jobs'.set i j') k'' := by
  obtain ⟨log, hlog, htogether⟩ := h
  refine ⟨_, fun x hx => ?_, .step htogether hj hstep⟩
  rcases List.mem_append.mp hx with hx | hx
  · exact hlog x hx
  · obtain ⟨y, hy, rfl⟩ := Option.map_eq_some_iff.mp (Option.mem_toList.mp hx)
    exact hoffer y hy

/-- Putting an item where it is changes nothing. -/
theorem set_of_getElem? {α : Type} {l : List α} {i : Nat} {a : α} (h : l[i]? = some a) : l.set i a = l := by
  obtain ⟨hi, rfl⟩ := List.getElem?_eq_some_iff.mp h
  exact List.set_getElem_self hi

/-- A backend can write what its last call emitted. -/
theorem Leads.write (h : Leads o options w jobs k jobs' k') {g : Generator σ} {s : σ} {r : Report}
    {pending : List Emission} {stops : List Visit} (hj : jobs'[i]? = some (.running g s r pending stops))
    (hwrite : w.writeAll pending k' = (.ok (), k'')) :
    Leads o options w jobs k
      (jobs'.set i (.running g s { r with files := r.files ++ pending.map Emission.path } [] stops)) k'' := by
  induction pending generalizing jobs' k' r with
  | nil =>
    cases hwrite
    rw [List.map_nil, List.append_nil, set_of_getElem? hj]
    exact h
  | cons e pending ih =>
    rw [Writer.writeAll] at hwrite
    split at hwrite
    next k₁ haccepted =>
      have hi : i < jobs'.length := (List.getElem?_eq_some_iff.mp hj).1
      have hnext := ih (h.step hj (.accepted g s r e pending stops k' k₁ haccepted) (by simp))
        (List.getElem?_set_self hi) hwrite
      rw [List.set_set] at hnext
      simpa using hnext
    next => cases hwrite

/-- A running backend that goes on alone comes to its end, if its emissions are accepted. -/
theorem Leads.finish_running (h : Leads o options w jobs k jobs' k') {g : Generator σ} {s : σ} {r : Report}
    {pending : List Emission} {stops : List Visit} (hj : jobs'[i]? = some (.running g s r pending stops))
    (hwrite : w.writeAll (pending ++ g.emissions o options stops s) k' = (.ok (), k'')) :
    Leads o options w jobs k
      (jobs'.set i (.ended ((Job.running g s r pending stops).verdict o options))) k'' := by
  have hi : i < jobs'.length := (List.getElem?_eq_some_iff.mp hj).1
  induction stops generalizing jobs' k' s r pending with
  | nil =>
    rw [Generator.emissions, List.append_nil] at hwrite
    have hended := (h.write hj hwrite).step (List.getElem?_set_self hi) (.finish _ _ _ _) (by simp)
    rw [List.set_set] at hended
    simpa [Job.verdict, Generator.emissions] using hended
  | cons v stops ih =>
    obtain ⟨between, hpending⟩ := Writer.exists_writeAll_of_prefix hwrite (List.prefix_append _ _)
    rw [Writer.writeAll_append_of_ok hpending] at hwrite
    have hcalled := (h.write hj hpending).step (List.getElem?_set_self hi) (.call _ _ _ _ _ _) (by simp)
    rw [List.set_set] at hcalled
    have hended := ih hcalled (List.getElem?_set_self hi) hwrite (by simpa using hi)
    rw [List.set_set] at hended
    simpa [Job.verdict, Generator.emissions] using hended

/-- A backend that goes on alone comes to its end, if its emissions are accepted. -/
theorem Leads.finish (h : Leads o options w jobs k jobs' k') {j : Job σ} (hj : jobs'[i]? = some j)
    (hwrite : w.writeAll (j.remaining o options) k' = (.ok (), k'')) :
    Leads o options w jobs k (jobs'.set i (.ended (j.verdict o options))) k'' := by
  cases j with
  | running g s r pending stops => exact h.finish_running hj hwrite
  | ended outcome =>
    cases hwrite
    rw [Job.verdict, set_of_getElem? hj]
    exact h

/-- Backends that go on one after another come to their ends, if their emissions are accepted. -/
theorem Leads.finish_all {before rest : List (Job σ)} (h : Leads o options w jobs k (before ++ rest) k')
    (hwrite : w.writeAll (rest.flatMap (Job.remaining o options)) k' = (.ok (), k'')) :
    Leads o options w jobs k (before ++ rest.map fun j => .ended (j.verdict o options)) k'' := by
  induction rest generalizing before k' with
  | nil => cases hwrite; exact h
  | cons j rest ih =>
    rw [List.flatMap_cons] at hwrite
    obtain ⟨between, hfirst⟩ := Writer.exists_writeAll_of_prefix hwrite (List.prefix_append _ _)
    rw [Writer.writeAll_append_of_ok hfirst] at hwrite
    have hended := h.finish (i := before.length) (by simp) hfirst
    rw [List.set_append_right _ _ (Nat.le_refl _), Nat.sub_self, List.set_cons_zero,
      ← List.singleton_append, ← List.append_assoc] at hended
    have hall := ih hended hwrite
    rwa [List.append_assoc, List.singleton_append] at hall

/-- Several backends can run to their ends, if their emissions are accepted one backend after the other. -/
theorem exists_completes {gs : List (Generator σ × σ)}
    (hwrite : w.writeAll (gs.flatMap fun g => g.1.written o options g.2) k = (.ok (), k')) :
    ∃ log outcome, Completes o options w gs k log outcome k' := by
  have hjobs : (gs.map (Job.start o options)).flatMap (Job.remaining o options) =
      gs.flatMap fun g => g.1.written o options g.2 := by
    simp only [List.flatMap_map, Job.remaining_start]
  have hstart : Leads o options w (gs.map (Job.start o options)) k ([] ++ gs.map (Job.start o options)) k :=
    ⟨[], by simp, .start⟩
  obtain ⟨log, hlog, htogether⟩ := hstart.finish_all (hjobs ▸ hwrite)
  let outcomes := gs.map fun g => (Job.start o options g).verdict o options
  have hended : (gs.map (Job.start o options)).map (fun j => .ended (j.verdict o options)) =
      outcomes.map (@Job.ended σ) := by
    simp only [outcomes, List.map_map]
    rfl
  rw [List.nil_append, hended] at htogether
  exact ⟨log, _, hlog, outcomes, rfl, htogether⟩

end Existence

end OntologyCompiler
