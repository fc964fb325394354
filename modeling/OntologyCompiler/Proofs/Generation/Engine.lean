import OntologyCompiler.Generation.Engine
import OntologyCompiler.Proofs.Order

/-!
# What the engine promises

A backend and a writer are watched by their recording versions, which do as the plain ones and keep a log:
the calls that a backend gets and the emissions that a writer is offered. A run is described by what the
backend alone would emit when it is fed the stops in order, and by the first of these emissions that the
writer alone refuses.
-/

namespace OntologyCompiler

/-- What a backend is shown at a stop besides the ontology: the entity and the package that owns it. -/
structure Cursor where
  package : Option Package
  ofClass : Option Class
  ofEnum : Option Enumeration

/-- What a backend is shown at a stop. -/
def Visit.cursor (o : Ontology) (v : Visit) : Cursor := ⟨v.package? o, v.class?, v.enum?⟩

/-- A call of a backend with what it can see. -/
structure Call where
  ontology : Ontology
  options : GenerationOptions
  stop : Visit

/-- An emission that a writer was offered, and whether it took it. -/
structure Offer where
  emission : Emission
  taken : Bool
  deriving DecidableEq, Repr

namespace Writer

variable {ω : Type} {w : Writer ω} {es fs before : List Emission} {e : Emission} {k k' : ω}
  {failure : CompileError}

/-- What is left is written after what was accepted. -/
theorem writeAll_append_of_ok (h : w.writeAll es k = (.ok (), k')) :
    w.writeAll (es ++ fs) k = w.writeAll fs k' := by
  induction es generalizing k with
  | nil => cases h; rfl
  | cons e es ih =>
    rw [List.cons_append, writeAll]
    rw [writeAll] at h
    split at h
    next => exact ih h
    next => cases h

/-- Nothing is written after a refusal. -/
theorem writeAll_append_of_error (h : w.writeAll es k = (.error failure, k')) :
    w.writeAll (es ++ fs) k = (.error failure, k') := by
  induction es generalizing k with
  | nil => cases h
  | cons e es ih =>
    rw [List.cons_append, writeAll]
    rw [writeAll] at h
    split at h
    next => exact ih h
    next => exact h

/-- Emissions that are accepted are accepted up to any of them. -/
theorem exists_writeAll_of_prefix (h : w.writeAll es k = (.ok (), k')) (hfs : fs <+: es) :
    ∃ between, w.writeAll fs k = (.ok (), between) := by
  obtain ⟨rest, rfl⟩ := hfs
  rcases hwritten : w.writeAll fs k with ⟨outcome, between⟩
  cases outcome with
  | ok done => exact ⟨between, rfl⟩
  | error failure =>
    rw [writeAll_append_of_error hwritten] at h
    cases h

/-- The first emission to be refused, after those that were accepted. -/
structure Refuses (w : Writer ω) (es : List Emission) (k : ω) (before : List Emission) (e : Emission)
    (failure : CompileError) (k' : ω) : Prop where
  offered : before ++ [e] <+: es
  accepted : ∃ between, w.writeAll before k = (.ok (), between) ∧ w.write e between = (.error failure, k')

/-- A refusal is the outcome of all writes. -/
theorem Refuses.writeAll_eq (h : w.Refuses es k before e failure k') :
    w.writeAll es k = (.error failure, k') := by
  obtain ⟨between, hbefore, hwrite⟩ := h.accepted
  obtain ⟨rest, rfl⟩ := h.offered
  apply writeAll_append_of_error
  rw [writeAll_append_of_ok hbefore, writeAll, hwrite]

/-- The emissions accepted before a refusal are not accepted together with the refused one. -/
theorem Refuses.not_writeAll (h : w.Refuses es k before e failure k') {between : ω} :
    w.writeAll (before ++ [e]) k ≠ (.ok (), between) := by
  obtain ⟨taken, hbefore, hwrite⟩ := h.accepted
  rw [writeAll_append_of_ok hbefore, writeAll, hwrite]
  intro heq
  cases heq

/-- The refused emission is among the first part of the emissions if the writer refuses this part. -/
theorem Refuses.left (h : w.Refuses (es ++ fs) k before e failure k') {failure' : CompileError} {k₁ : ω}
    (hes : w.writeAll es k = (.error failure', k₁)) : before ++ [e] <+: es := by
  rcases List.prefix_or_prefix_of_prefix h.offered (List.prefix_append es fs) with hin | hout
  · exact hin
  · rcases List.prefix_concat_iff.mp hout with rfl | hbefore
    · exact List.prefix_rfl
    · obtain ⟨between, hall, -⟩ := h.accepted
      obtain ⟨between', htaken⟩ := exists_writeAll_of_prefix hall hbefore
      rw [hes] at htaken
      cases htaken

/-- The refused emission is among the second part of the emissions if the writer accepts the first part. -/
theorem Refuses.right (h : w.Refuses (es ++ fs) k before e failure k') {k₁ : ω}
    (hes : w.writeAll es k = (.ok (), k₁)) : ∃ rest, before = es ++ rest ∧ w.Refuses fs k₁ rest e failure k' := by
  have hbefore : es <+: before := by
    rcases List.prefix_or_prefix_of_prefix h.offered (List.prefix_append es fs) with hin | hout
    · obtain ⟨between, htaken⟩ := exists_writeAll_of_prefix hes hin
      exact absurd htaken h.not_writeAll
    · rcases List.prefix_concat_iff.mp hout with rfl | hbefore
      · exact absurd hes h.not_writeAll
      · exact hbefore
  obtain ⟨rest, rfl⟩ := hbefore
  obtain ⟨between, hall, hwrite⟩ := h.accepted
  rw [writeAll_append_of_ok hes] at hall
  refine ⟨rest, rfl, ?_, between, hall, hwrite⟩
  have hoffered := h.offered
  rw [List.append_assoc] at hoffered
  exact (List.prefix_append_right_inj es).mp hoffered

/-- Either all emissions are accepted or one of them is the first to be refused. -/
theorem exists_writeAll_or_refuses (w : Writer ω) (es : List Emission) (k : ω) :
    (∃ k', w.writeAll es k = (.ok (), k')) ∨ ∃ before e failure k', w.Refuses es k before e failure k' := by
  induction es generalizing k with
  | nil => exact Or.inl ⟨k, rfl⟩
  | cons e es ih =>
    rcases hwrite : w.write e k with ⟨outcome, k₁⟩
    cases outcome with
    | error failure =>
      exact Or.inr ⟨[], e, failure, k₁, ⟨es, rfl⟩, k, rfl, hwrite⟩
    | ok done =>
      have hfirst (rest : List Emission) : w.writeAll (e :: rest) k = w.writeAll rest k₁ := by
        rw [writeAll, hwrite]
      rcases ih k₁ with ⟨k', hall⟩ | ⟨before, e', failure, k', hrefused⟩
      · exact Or.inl ⟨k', (hfirst es).trans hall⟩
      · obtain ⟨between, hbefore, hwrite'⟩ := hrefused.accepted
        refine Or.inr ⟨e :: before, e', failure, k', ?_, between, (hfirst before).trans hbefore, hwrite'⟩
        exact (List.prefix_cons_inj e).mpr hrefused.offered

/-- The writer that also logs what it is offered. -/
def recording (w : Writer ω) : Writer (ω × List Offer) where
  write e k :=
    let answer := w.write e k.1
    (answer.1, answer.2, k.2 ++ [⟨e, answer.1.toBool⟩])

/-- A log does not change what is written. -/
theorem writeAll_recording (es : List Emission) (k : ω) (log : List Offer) :
    (w.recording.writeAll es (k, log)).1 = (w.writeAll es k).1 ∧
      (w.recording.writeAll es (k, log)).2.1 = (w.writeAll es k).2 := by
  induction es generalizing k log with
  | nil => exact ⟨rfl, rfl⟩
  | cons e es ih =>
    rcases hwrite : w.write e k with ⟨outcome, k₁⟩
    have hrecorded : w.recording.write e (k, log) = (outcome, k₁, log ++ [⟨e, outcome.toBool⟩]) := by
      simp [recording, hwrite]
    rw [writeAll, writeAll, hrecorded, hwrite]
    cases outcome with
    | ok done => exact ih k₁ _
    | error failure => exact ⟨rfl, rfl⟩

/-- A log of accepted emissions lists them. -/
theorem writeAll_recording_of_ok (h : w.writeAll es k = (.ok (), k')) (log : List Offer) :
    w.recording.writeAll es (k, log) = (.ok (), k', log ++ es.map (⟨·, true⟩)) := by
  induction es generalizing k log with
  | nil => cases h; simp [writeAll]
  | cons e es ih =>
    rw [writeAll] at h
    split at h
    next k₁ hwrite =>
      have hrecorded : w.recording.write e (k, log) = (.ok (), k₁, log ++ [⟨e, true⟩]) := by
        simp [recording, hwrite, Except.toBool]
      rw [writeAll, hrecorded]
      simp only [ih h, List.map_cons, List.append_assoc, List.singleton_append]
    next => cases h

/-- The log of a refusal ends with the emission refused. -/
theorem Refuses.recording (h : w.Refuses es k before e failure k') :
    w.recording.Refuses es (k, []) before e failure (k', before.map (⟨·, true⟩) ++ [⟨e, false⟩]) := by
  obtain ⟨between, hbefore, hwrite⟩ := h.accepted
  refine ⟨h.offered, _, writeAll_recording_of_ok hbefore [], ?_⟩
  simp [Writer.recording, hwrite, Except.toBool]

end Writer

namespace Generator

variable {σ ω : Type} (g : Generator σ) (o : Ontology) (options : GenerationOptions)

/-- The state of a backend after it has been fed some stops. -/
def after (stops : List Visit) (s : σ) : σ := stops.foldl (fun s v => (g.visit o options v s).2) s

/-- All that a backend emits when it is fed some stops. -/
def emissions : List Visit → σ → List Emission
  | [], _ => []
  | v :: rest, s => (g.visit o options v s).1 ++ emissions rest (g.visit o options v s).2

/-- The summary after more stops whose emissions have been written. -/
def reported (stops : List Visit) (s : σ) (r : Report) : Report :=
  { r with
    visits := stops.foldl VisitCounts.add r.visits
    files := r.files ++ (g.emissions o options stops s).map Emission.path }

/-- The backend that also logs its calls. -/
def recording : Generator (σ × List Call) where
  name := g.name
  isRequired := g.isRequired
  visit o options v s :=
    let answer := g.visit o options v s.1
    (answer.1, answer.2, s.2 ++ [⟨o, options, v⟩])

section Recording

variable (stops : List Visit) (s : σ) (calls : List Call)

/-- A backend emits the same when its calls are logged. -/
theorem emissions_recording :
    g.recording.emissions o options stops (s, calls) = g.emissions o options stops s := by
  induction stops generalizing s calls with
  | nil => rfl
  | cons v stops ih => exact congrArg ((g.visit o options v s).1 ++ ·) (ih _ _)

/-- The log of calls grows by the stops in order. -/
theorem after_recording : g.recording.after o options stops (s, calls) =
    (g.after o options stops s, calls ++ stops.map (⟨o, options, ·⟩)) := by
  induction stops generalizing s calls with
  | nil => simp [after]
  | cons v stops ih =>
    have hrest := ih (g.visit o options v s).2 (calls ++ [⟨o, options, v⟩])
    rw [List.append_assoc] at hrest
    exact hrest

end Recording

variable {g o options} {w : Writer ω} {stops : List Visit} {s : σ} {k k' : ω}
  {before : List Emission} {e : Emission} {failure : CompileError}

/-- A walk goes through stops whose emissions are all accepted. -/
theorem walk_of_writeAll_ok (h : w.writeAll (g.emissions o options stops s) k = (.ok (), k'))
    (rest : List Visit) (r : Report) : g.walk o options w (stops ++ rest) r s k =
      g.walk o options w rest (g.reported o options stops s r) (g.after o options stops s) k' := by
  induction stops generalizing s k r with
  | nil => cases h; simp [reported, after, emissions]
  | cons v stops ih =>
    rw [emissions] at h
    rcases hv : w.writeAll (g.visit o options v s).1 k with ⟨outcome, k₁⟩
    cases outcome with
    | error failure =>
      rw [Writer.writeAll_append_of_error hv] at h
      cases h
    | ok done =>
      rw [Writer.writeAll_append_of_ok hv] at h
      rw [List.cons_append, walk, hv]
      simp only [ih h]
      simp [reported, Report.add, emissions, after]

/-- A walk ends at the stop whose emissions hold the first one to be refused. -/
theorem exists_walk_of_refuses (h : w.Refuses (g.emissions o options stops s) k before e failure k')
    (r : Report) : ∃ done v rest, stops = done ++ v :: rest ∧
      g.emissions o options done s <+: before ∧ before ++ [e] <+: g.emissions o options (done ++ [v]) s ∧
      g.walk o options w stops r s k = ⟨.error failure, g.after o options (done ++ [v]) s, k'⟩ := by
  induction stops generalizing s k r before with
  | nil =>
    have hlength := h.offered.length_le
    simp [emissions] at hlength
  | cons v stops ih =>
    rw [emissions] at h
    rcases hv : w.writeAll (g.visit o options v s).1 k with ⟨outcome, k₁⟩
    cases outcome with
    | error failure' =>
      have hall := h.writeAll_eq
      rw [Writer.writeAll_append_of_error hv] at hall
      cases hall
      refine ⟨[], v, stops, rfl, List.nil_prefix, ?_, ?_⟩
      · simpa [emissions] using h.left hv
      · rw [walk, hv]
        rfl
    | ok taken =>
      obtain ⟨later, rfl, hlater⟩ := h.right hv
      obtain ⟨done, v', rest, rfl, hdone, hlast, hwalk⟩ := ih hlater (r.add v (g.visit o options v s).1)
      refine ⟨v :: done, v', rest, rfl, ?_, ?_, ?_⟩
      · exact (List.prefix_append_right_inj _).mpr hdone
      · rw [List.append_assoc]
        exact (List.prefix_append_right_inj _).mpr hlast
      · rw [walk, hv]
        exact hwalk

end Generator

/-- The number of findings about references that could not be bound. -/
theorem Diagnostics.unresolvedCount_eq (ds : Diagnostics) : ds.unresolvedCount =
    (ds.filter fun d => d.code = .unresolvedBase ∨ d.code = .unresolvedType).length := by
  rw [unresolvedCount, List.countP_eq_length_filter]
  congr 2
  funext d
  cases d.code <;> rfl

namespace Ontology

variable (o : Ontology)

/-- Packages by name, and types by name and then by the name of their package. -/
structure Listing (packages : List Package) (classes : List Class) (enums : List Enumeration) : Prop where
  packages_perm : packages.Perm o.packages
  classes_perm : classes.Perm o.classes
  enums_perm : enums.Perm o.enums
  packages_sorted : packages.Pairwise fun p q => (compare p.name q.name).isLE = true
  classes_sorted : classes.Pairwise fun c d => compare c.name d.name = .lt ∨
    c.name = d.name ∧ (compare (o.packageName c.package) (o.packageName d.package)).isLE = true
  enums_sorted : enums.Pairwise fun e f => compare e.name f.name = .lt ∨
    e.name = f.name ∧ (compare (o.packageName e.package) (o.packageName f.package)).isLE = true

/-- Of two types the first comes before the second by name, or by package name if they have one name. -/
theorem isLE_typeOrder {a b : String × PackageId} : (o.typeOrder a b).isLE = true ↔
    compare a.1 b.1 = .lt ∨ a.1 = b.1 ∧ (compare (o.packageName a.2) (o.packageName b.2)).isLE = true := by
  unfold typeOrder
  rcases h : compare a.1 b.1 with _ | _ | _
  · simp
  · simp [Std.LawfulEqOrd.eq_of_compare h]
  · have hne : a.1 ≠ b.1 := fun heq => by
      rw [heq, Std.compare_self] at h
      cases h
    simp [hne]

instance : Std.TransCmp o.typeOrder :=
  inferInstanceAs (Std.TransCmp (compareLex (compareOn Prod.fst) (compareOn fun a => o.packageName a.2)))

/-- The sorted packages, classes and enumerations list each of them once and in order. -/
theorem listing_sorted : o.Listing o.sortedPackages o.sortedClasses o.sortedEnums where
  packages_perm := perm_sortOn
  classes_perm := List.mergeSort_perm _ _
  enums_perm := List.mergeSort_perm _ _
  packages_sorted := pairwise_sortOn
  classes_sorted :=
    (pairwise_mergeSort_key o.typeOrder (fun c : Class => (c.name, c.package)) o.classes).imp o.isLE_typeOrder.mp
  enums_sorted :=
    (pairwise_mergeSort_key o.typeOrder (fun e : Enumeration => (e.name, e.package)) o.enums).imp o.isLE_typeOrder.mp

/-- The numbers of packages, classes and enumerations are counted by the stops of a walk. -/
theorem foldl_add_visits : o.visits.foldl VisitCounts.add ⟨0, 0, 0, 0, 0, 0⟩ =
    ⟨1, 1, o.packages.length, o.classes.length, o.enums.length, 1⟩ := by
  have hpackages (l : List Package) (n : VisitCounts) : (l.map Visit.package).foldl VisitCounts.add n =
      { n with packages := n.packages + l.length } := by
    induction l generalizing n with
    | nil => rfl
    | cons p l ih => simp [ih, VisitCounts.add, Nat.add_assoc, Nat.add_comm 1]
  have hclasses (l : List Class) (n : VisitCounts) : (l.map Visit.ofClass).foldl VisitCounts.add n =
      { n with classes := n.classes + l.length } := by
    induction l generalizing n with
    | nil => rfl
    | cons c l ih => simp [ih, VisitCounts.add, Nat.add_assoc, Nat.add_comm 1]
  have henums (l : List Enumeration) (n : VisitCounts) : (l.map Visit.ofEnum).foldl VisitCounts.add n =
      { n with enums := n.enums + l.length } := by
    induction l generalizing n with
    | nil => rfl
    | cons e l ih => simp [ih, VisitCounts.add, Nat.add_assoc, Nat.add_comm 1]
  have hlisting := o.listing_sorted
  simp only [visits, List.foldl_append, hpackages, hclasses, henums, hlisting.packages_perm.length_eq,
    hlisting.classes_perm.length_eq, hlisting.enums_perm.length_eq]
  simp [VisitCounts.add]

end Ontology

/-- A run without the logs that come with its states. -/
def Run.plain {σ ω α β : Type} (run : Run (σ × α) (ω × β)) : Run σ ω := ⟨run.outcome, run.state.1, run.sink.1⟩

/-- Under strict options there is no unresolved reference. -/
def GenerationOptions.Allow (options : GenerationOptions) (o : Ontology) : Prop :=
  options.strictness = .strict → o.diagnostics.unresolvedCount = 0

namespace Generator

variable {σ ω : Type} (g : Generator σ) (o : Ontology) (options : GenerationOptions) (w : Writer ω)
  (s : σ) (k : ω)

/-- A run of a backend whose calls are logged on a writer whose offers are logged. -/
def watch : Run (σ × List Call) (ω × List Offer) :=
  g.recording.execute o options w.recording (s, []) (k, [])

/-- What the engine promises about a run of a backend on a writer. -/
structure Contract : Prop where
  /-- The logs do not change the run. -/
  watched : (g.watch o options w s k).plain = g.execute o options w s k
  /-- Under strict options unresolved references end the run before its first stop, with their number. -/
  refuses_unresolved : options.strictness = .strict → ∀ n, 0 < n →
    n = (o.diagnostics.filter fun d => d.code = .unresolvedBase ∨ d.code = .unresolvedType).length →
    g.watch o options w s k = ⟨.error (.unresolvedReferences n), (s, []), (k, [])⟩
  /-- A backend without anything to do is skipped. -/
  skips : options.Allow o → g.isRequired o = false →
    g.watch o options w s k = ⟨.ok ⟨g.name, true, ⟨0, 0, 0, 0, 0, 0⟩, []⟩, (s, []), (k, [])⟩
  /-- The stops are the start, the ontology, its entities in sorted order, and the end. -/
  order : ∃ ps cs es, o.Listing ps cs es ∧
    o.visits = [.start, .ontology] ++ ps.map .package ++ cs.map .ofClass ++ es.map .ofEnum ++ [.finish] ∧
    o.visits.map (Visit.cursor o) = [⟨none, none, none⟩, ⟨none, none, none⟩] ++
      ps.map (fun p => ⟨some p, none, none⟩) ++ cs.map (fun c => ⟨o.package? c.package, some c, none⟩) ++
      es.map (fun e => ⟨o.package? e.package, none, some e⟩) ++ [⟨none, none, none⟩]
  /-- Without a refusal all stops are made and the writer gets all emissions in order. -/
  completes : options.Allow o → g.isRequired o = true → ∀ k', w.writeAll (g.emissions o options o.visits s) k = (.ok (), k') →
    g.watch o options w s k =
      ⟨.ok ⟨g.name, false, ⟨1, 1, o.packages.length, o.classes.length, o.enums.length, 1⟩,
          (g.emissions o options o.visits s).map Emission.path⟩,
        (g.after o options o.visits s, o.visits.map (⟨o, options, ·⟩)),
        (k', (g.emissions o options o.visits s).map (⟨·, true⟩))⟩
  /-- A refusal ends the run with the stop whose emissions hold the refused one, and with its failure. -/
  stops : options.Allow o → g.isRequired o = true → ∀ before e failure k',
    w.Refuses (g.emissions o options o.visits s) k before e failure k' →
    ∃ done v rest, o.visits = done ++ v :: rest ∧
      g.emissions o options done s <+: before ∧ before ++ [e] <+: g.emissions o options (done ++ [v]) s ∧
      g.watch o options w s k =
        ⟨.error failure, (g.after o options (done ++ [v]) s, (done ++ [v]).map (⟨o, options, ·⟩)),
          (k', before.map (⟨·, true⟩) ++ [⟨e, false⟩])⟩
  /-- There is no third case. -/
  decided : (∃ k', w.writeAll (g.emissions o options o.visits s) k = (.ok (), k')) ∨
    ∃ before e failure k', w.Refuses (g.emissions o options o.visits s) k before e failure k'

variable {g o options w s k}

/-- Logs do not change a walk. -/
theorem plain_walk_recording (stops : List Visit) (r : Report) (s : σ) (k : ω) (calls : List Call)
    (log : List Offer) : (g.recording.walk o options w.recording stops r (s, calls) (k, log)).plain =
      g.walk o options w stops r s k := by
  induction stops generalizing r s k calls log with
  | nil => rfl
  | cons v stops ih =>
    have hwritten := @Writer.writeAll_recording _ w (g.visit o options v s).1 k log
    rcases hplain : w.writeAll (g.visit o options v s).1 k with ⟨outcome, k₁⟩
    rcases hlogged : w.recording.writeAll (g.visit o options v s).1 (k, log) with ⟨outcome', k₁', log'⟩
    rw [hplain, hlogged] at hwritten
    obtain ⟨rfl, rfl⟩ := hwritten
    have hvisit : g.recording.visit o options v (s, calls) =
      ((g.visit o options v s).1, (g.visit o options v s).2, calls ++ [⟨o, options, v⟩]) := rfl
    rw [walk, walk, hplain, hvisit, hlogged]
    cases outcome' with
    | ok done => exact ih _ _ _ _ _
    | error failure => rfl

/-- A run under strict options is refused for unresolved references. -/
theorem execute_of_unresolved (h : options.strictness = .strict) (hpos : 0 < o.diagnostics.unresolvedCount) :
    g.execute o options w s k = ⟨.error (.unresolvedReferences o.diagnostics.unresolvedCount), s, k⟩ := by
  rw [execute, if_pos ⟨h, hpos⟩]

/-- Options that allow an ontology do not refuse it. -/
theorem not_refused_of_allow (h : options.Allow o) :
    ¬(options.strictness = .strict ∧ 0 < o.diagnostics.unresolvedCount) := by
  intro hrefused
  have hzero := h hrefused.1
  omega

/-- A backend without anything to do is skipped. -/
theorem execute_of_idle (h : options.Allow o) (hidle : g.isRequired o = false) :
    g.execute o options w s k = ⟨.ok { Report.new g.name with skipped := true }, s, k⟩ := by
  rw [execute, if_neg (not_refused_of_allow h), hidle]
  rfl

/-- A run that is neither refused nor skipped is a walk. -/
theorem execute_of_required (h : options.Allow o) (hrequired : g.isRequired o = true) :
    g.execute o options w s k = g.walk o options w o.visits (.new g.name) s k := by
  rw [execute, if_neg (not_refused_of_allow h), hrequired]
  rfl

/-- Logs do not change a run. -/
theorem plain_watch : (g.watch o options w s k).plain = g.execute o options w s k := by
  by_cases hrefused : options.strictness = .strict ∧ 0 < o.diagnostics.unresolvedCount
  · rw [watch, execute_of_unresolved hrefused.1 hrefused.2, execute_of_unresolved hrefused.1 hrefused.2]
    rfl
  · have hallow : options.Allow o := by
      intro hstrict
      by_contra hpos
      exact hrefused ⟨hstrict, Nat.pos_of_ne_zero hpos⟩
    rcases hrequired : g.isRequired o with _ | _
    · rw [watch, execute_of_idle hallow hrequired, execute_of_idle hallow (by exact hrequired)]
      rfl
    · rw [watch, execute_of_required hallow hrequired, execute_of_required hallow (by exact hrequired)]
      exact plain_walk_recording _ _ _ _ _ _

/-- A run whose writes are all accepted makes all stops. -/
theorem execute_of_writeAll_ok (h : options.Allow o) (hrequired : g.isRequired o = true)
    (hall : w.writeAll (g.emissions o options o.visits s) k = (.ok (), k')) :
    g.execute o options w s k =
      ⟨.ok (g.reported o options o.visits s (.new g.name)), g.after o options o.visits s, k'⟩ := by
  have hwalk := walk_of_writeAll_ok hall [] (.new g.name)
  rw [List.append_nil] at hwalk
  rw [execute_of_required h hrequired, hwalk]
  rfl

/-- The summary of a complete run. -/
theorem reported_visits : g.reported o options o.visits s (.new g.name) =
    ⟨g.name, false, ⟨1, 1, o.packages.length, o.classes.length, o.enums.length, 1⟩,
      (g.emissions o options o.visits s).map Emission.path⟩ := by
  simp [reported, Report.new, o.foldl_add_visits]

/-- The engine keeps its promises to every backend on every writer. -/
theorem execute_honours_contract (g : Generator σ) (o : Ontology) (options : GenerationOptions)
    (w : Writer ω) (s : σ) (k : ω) : g.Contract o options w s k where
  watched := plain_watch
  refuses_unresolved := by
    intro hstrict n hpos hn
    rw [← Diagnostics.unresolvedCount_eq] at hn
    subst hn
    exact execute_of_unresolved hstrict hpos
  skips := by
    intro hallow hidle
    exact execute_of_idle hallow (by exact hidle)
  order := by
    refine ⟨_, _, _, o.listing_sorted, rfl, ?_⟩
    simp only [Ontology.visits, List.map_append, List.map_map]
    rfl
  completes := by
    intro hallow hrequired k' hall
    have hlogged : w.recording.writeAll (g.recording.emissions o options o.visits (s, [])) (k, []) =
        (.ok (), k', (g.emissions o options o.visits s).map (⟨·, true⟩)) := by
      rw [emissions_recording, Writer.writeAll_recording_of_ok hall, List.nil_append]
    rw [watch, execute_of_writeAll_ok hallow (by exact hrequired) hlogged, reported_visits,
      emissions_recording, after_recording, List.nil_append]
    rfl
  stops := by
    intro hallow hrequired before e failure k' hrefused
    have hlogged := hrefused.recording
    rw [← emissions_recording g o options o.visits s []] at hlogged
    obtain ⟨done, v, rest, hvisits, hdone, hlast, hwalk⟩ := exists_walk_of_refuses hlogged (.new g.name)
    rw [emissions_recording] at hdone hlast
    refine ⟨done, v, rest, hvisits, hdone, hlast, ?_⟩
    rw [after_recording, List.nil_append] at hwalk
    rw [watch, execute_of_required hallow (by exact hrequired)]
    exact hwalk
  decided := Writer.exists_writeAll_or_refuses _ _ _

end Generator

end OntologyCompiler
