import Mathlib.Data.List.Nodup
import Mathlib.Logic.Relation

/-!
# Loading modules

Importing a module that has not been started starts it, imports what it lists at its top, defines its
classes, and imports what it lists at its tail; a started module is left alone. The events of a load are
described once, for a list of modules imported after some events: every module reached by modules that
were not started is started and then defined, once, and what is started between the start of a module and
its definition is what its top reaches. From this follows which module is defined first.
-/

namespace OntologyCompiler

/-- What happens to a module in a load. -/
inductive LoadEvent (α : Type) where
  | starts (m : α)
  | defines (m : α)
  deriving DecidableEq, Repr

/-- What modules import before their classes are defined, and after that. -/
structure ImportGraph (α : Type) where
  top : α → List α
  tail : α → List α

namespace ImportGraph

variable {α : Type}

/-- The imports that a table gives for modules; other modules import nothing. -/
def ofTable [DecidableEq α] (table : List (α × List α × List α)) : ImportGraph α where
  top m := ((table.find? fun entry => entry.1 = m).map fun entry => entry.2.1).getD []
  tail m := ((table.find? fun entry => entry.1 = m).map fun entry => entry.2.2).getD []

/-- Everything that a module imports. -/
def imports (g : ImportGraph α) (m : α) : List α := g.top m ++ g.tail m

/-- Imports a module after some events. The depth of nested imports is bounded; a module is started once,
so the number of modules is bound enough. -/
def load [DecidableEq α] (g : ImportGraph α) : Nat → List (LoadEvent α) → α → List (LoadEvent α)
  | 0, trace, _ => trace
  | depth + 1, trace, m =>
    if .starts m ∈ trace then trace
    else
      let defined := (g.top m).foldl (load g depth) (trace ++ [.starts m]) ++ [.defines m]
      (g.tail m).foldl (load g depth) defined

/-- The events of importing some modules one after the other. A module is started once, so imports are not
nested deeper than there are modules. -/
def loadTable [DecidableEq α] (table : List (α × List α × List α)) (roots : List α) : List (LoadEvent α) :=
  roots.foldl (load (ofTable table) (table.length + 1)) []

/-- A module is reached from some targets by imports of modules that are not started. -/
def Reaches (g : ImportGraph α) (trace : List (LoadEvent α)) (targets : List α) (x : α) : Prop :=
  ∃ m ∈ targets, .starts m ∉ trace ∧ Relation.ReflTransGen (fun a b => b ∈ g.imports a ∧ .starts b ∉ trace) m x

/-- Between the start and the definition of a module, what its top reaches is started and defined. -/
def HasPhase (g : ImportGraph α) (trace events : List (LoadEvent α)) (x : α) : Prop :=
  ∃ before inner after, events = before ++ .starts x :: (inner ++ .defines x :: after) ∧
    (∀ y, .starts y ∈ inner ↔ g.Reaches (trace ++ before ++ [.starts x]) (g.top x) y) ∧
      ∀ y, .starts y ∈ inner → .defines y ∈ inner

/-- The events of importing some targets one after the other after a trace. -/
structure Loads (g : ImportGraph α) (trace events : List (LoadEvent α)) (targets : List α) : Prop where
  nodup : events.Nodup
  fresh : ∀ x, .starts x ∈ events → .starts x ∉ trace
  defines_iff : ∀ x, .defines x ∈ events ↔ .starts x ∈ events
  started : ∀ m ∈ targets, .starts m ∈ trace ++ events
  reached : ∀ x, .starts x ∈ events → g.Reaches trace targets x
  closed : ∀ x y, .starts x ∈ events → y ∈ g.imports x → .starts y ∈ trace ++ events
  phase : ∀ x, .starts x ∈ events → g.HasPhase trace events x

variable {g : ImportGraph α} {trace events events' inner after : List (LoadEvent α)} {targets targets' : List α}
  {m x y : α}

/-- Fewer started modules and more targets reach more. -/
theorem Reaches.mono {trace' : List (LoadEvent α)} (h : g.Reaches trace' targets' x)
    (htrace : ∀ y, LoadEvent.starts y ∈ trace → LoadEvent.starts y ∈ trace') (htargets : ∀ m ∈ targets', m ∈ targets) :
    g.Reaches trace targets x := by
  obtain ⟨m, hm, hfree, hpath⟩ := h
  refine ⟨m, htargets m hm, fun hmem => hfree (htrace m hmem), ?_⟩
  exact Relation.ReflTransGen.mono (fun a b hab => ⟨hab.1, fun hmem => hab.2 (htrace b hmem)⟩) m x hpath

/-- What the imports of an unstarted module reach, the module reaches. -/
theorem Reaches.cons (hfree : LoadEvent.starts m ∉ trace) (htargets : ∀ y ∈ targets, y ∈ g.imports m)
    (h : g.Reaches trace targets x) : g.Reaches trace [m] x := by
  obtain ⟨y, hy, hyfree, hpath⟩ := h
  exact ⟨m, List.mem_singleton_self m, hfree, .head ⟨htargets y hy, hyfree⟩ hpath⟩

namespace Loads

/-- Exactly what is reached is started. -/
theorem starts_iff (h : g.Loads trace events targets) : LoadEvent.starts x ∈ events ↔ g.Reaches trace targets x := by
  refine ⟨h.reached x, fun hreaches => ?_⟩
  have hnew {y : α} (hmem : LoadEvent.starts y ∈ trace ++ events) (hfree : LoadEvent.starts y ∉ trace) :
      LoadEvent.starts y ∈ events :=
    (List.mem_append.mp hmem).resolve_left hfree
  obtain ⟨m, hm, hfree, hpath⟩ := hreaches
  induction hpath with
  | refl => exact hnew (h.started m hm) hfree
  | tail _ hab ih => exact hnew (h.closed _ _ ih hab.1) hab.2

/-- Nothing is imported without events. -/
theorem nil : g.Loads trace [] [] where
  nodup := List.nodup_nil
  fresh := fun _ h => nomatch h
  defines_iff := fun _ => by simp
  started := fun _ h => nomatch h
  reached := fun _ h => nomatch h
  closed := fun _ _ h => nomatch h
  phase := fun _ h => nomatch h

/-- A started module is imported without events. -/
theorem skip (h : LoadEvent.starts m ∈ trace) : g.Loads trace [] [m] where
  nodup := List.nodup_nil
  fresh := fun _ h => nomatch h
  defines_iff := fun _ => by simp
  started := fun x hx => by rwa [List.mem_singleton.mp hx, List.append_nil]
  reached := fun _ h => nomatch h
  closed := fun _ _ h => nomatch h
  phase := fun _ h => nomatch h

/-- The phase of a module is seen with more events around it. -/
theorem hasPhase_append (first after : List (LoadEvent α)) (h : g.HasPhase (trace ++ first) events x) :
    g.HasPhase trace (first ++ (events ++ after)) x := by
  obtain ⟨before, inner, last, heq, hreaches, hdefines⟩ := h
  refine ⟨first ++ before, inner, last ++ after, by simp [heq], fun y => ?_, hdefines⟩
  rw [hreaches, List.append_assoc trace]

/-- Targets are imported one after the other. -/
theorem append (h : g.Loads trace events targets) (h' : g.Loads (trace ++ events) events' targets') :
    g.Loads trace (events ++ events') (targets ++ targets') where
  nodup := by
    refine List.nodup_append.mpr ⟨h.nodup, h'.nodup, fun e he e' he' heq => ?_⟩
    subst heq
    cases e with
    | starts x => exact h'.fresh x he' (List.mem_append_right _ he)
    | defines x => exact h'.fresh x ((h'.defines_iff x).mp he') (List.mem_append_right _ ((h.defines_iff x).mp he))
  fresh := by
    intro x hx
    rcases List.mem_append.mp hx with hx | hx
    · exact h.fresh x hx
    · exact fun hmem => h'.fresh x hx (List.mem_append_left _ hmem)
  defines_iff := by
    intro x
    rw [List.mem_append, List.mem_append, h.defines_iff, h'.defines_iff]
  started := by
    intro m hm
    rw [← List.append_assoc]
    rcases List.mem_append.mp hm with hm | hm
    · exact List.mem_append_left _ (h.started m hm)
    · exact h'.started m hm
  reached := by
    intro x hx
    rcases List.mem_append.mp hx with hx | hx
    · exact (h.reached x hx).mono (fun _ hy => hy) fun _ hm => List.mem_append_left _ hm
    · exact (h'.reached x hx).mono (fun _ hy => List.mem_append_left _ hy) fun _ hm => List.mem_append_right _ hm
  closed := by
    intro x y hx hy
    rw [← List.append_assoc]
    rcases List.mem_append.mp hx with hx | hx
    · exact List.mem_append_left _ (h.closed x y hx hy)
    · exact h'.closed x y hx hy
  phase := by
    intro x hx
    rcases List.mem_append.mp hx with hx | hx
    · exact hasPhase_append [] events' (by simpa using h.phase x hx)
    · simpa using hasPhase_append events [] (h'.phase x hx)

section Start

variable (hfree : LoadEvent.starts m ∉ trace) (htop : g.Loads (trace ++ [LoadEvent.starts m]) inner (g.top m))
  (htail : g.Loads (trace ++ [LoadEvent.starts m] ++ (inner ++ [LoadEvent.defines m])) after (g.tail m))

/-- The started modules are the one imported and what its top and its tail start. -/
theorem starts_mem_events : LoadEvent.starts x ∈ LoadEvent.starts m :: (inner ++ LoadEvent.defines m :: after) ↔
    x = m ∨ LoadEvent.starts x ∈ inner ∨ LoadEvent.starts x ∈ after := by
  simp

include htop in
/-- The top of a started module does not start it again. -/
theorem starts_notMem_inner : LoadEvent.starts m ∉ inner := by
  intro h
  exact htop.fresh m h (by simp)

include htail in
/-- The tail of a started module does not start it again. -/
theorem starts_notMem_after : LoadEvent.starts m ∉ after := by
  intro h
  exact htail.fresh m h (by simp)

include htop htail

/-- What happens in the top does not happen in the tail. -/
theorem notMem_after_of_mem_inner {e : LoadEvent α} (h : e ∈ inner) : e ∉ after := by
  have hapart (x : α) (hx : LoadEvent.starts x ∈ inner) : LoadEvent.starts x ∉ after := fun hmem =>
    htail.fresh x hmem (by simp [hx])
  cases e with
  | starts x => exact hapart x h
  | defines x =>
    intro hmem
    exact hapart x ((htop.defines_iff x).mp h) ((htail.defines_iff x).mp hmem)

/-- Nothing happens twice when a module is started. -/
theorem nodup_events : (LoadEvent.starts m :: (inner ++ LoadEvent.defines m :: after)).Nodup := by
  have hinner := starts_notMem_inner htop
  have hafter := starts_notMem_after htail
  have hdefined : LoadEvent.defines m ∉ after := fun h => hafter ((htail.defines_iff m).mp h)
  have hdefined' : LoadEvent.defines m ∉ inner := fun h => hinner ((htop.defines_iff m).mp h)
  apply List.nodup_cons.mpr
  refine ⟨by simp [hinner, hafter], List.nodup_append.mpr ⟨htop.nodup, ?_, ?_⟩⟩
  · exact List.nodup_cons.mpr ⟨hdefined, htail.nodup⟩
  · intro e he e' he' heq
    subst heq
    rcases List.mem_cons.mp he' with rfl | he'
    · exact hdefined' he
    · exact notMem_after_of_mem_inner htop htail he he'

/-- When a module is started, what started modules import is started. -/
theorem closed_events (hx : LoadEvent.starts x ∈ LoadEvent.starts m :: (inner ++ LoadEvent.defines m :: after))
    (hy : y ∈ g.imports x) :
    LoadEvent.starts y ∈ trace ++ LoadEvent.starts m :: (inner ++ LoadEvent.defines m :: after) := by
  have htop' (z : α) (h : LoadEvent.starts z ∈ trace ++ [LoadEvent.starts m] ++ inner) :
      LoadEvent.starts z ∈ trace ++ LoadEvent.starts m :: (inner ++ LoadEvent.defines m :: after) := by
    simp only [List.mem_append, List.mem_cons] at h ⊢
    tauto
  have htail' (z : α)
      (h : LoadEvent.starts z ∈ trace ++ [LoadEvent.starts m] ++ (inner ++ [LoadEvent.defines m]) ++ after) :
      LoadEvent.starts z ∈ trace ++ LoadEvent.starts m :: (inner ++ LoadEvent.defines m :: after) := by
    simp only [List.mem_append, List.mem_cons] at h ⊢
    tauto
  rcases starts_mem_events.mp hx with rfl | hx | hx
  · rcases List.mem_append.mp hy with hy | hy
    · exact htop' y (htop.started y hy)
    · exact htail' y (htail.started y hy)
  · exact htop' y (htop.closed x y hx hy)
  · exact htail' y (htail.closed x y hx hy)

/-- Each started module has its phase, the imported one by what its top starts. -/
theorem phase_events (hx : LoadEvent.starts x ∈ LoadEvent.starts m :: (inner ++ LoadEvent.defines m :: after)) :
    g.HasPhase trace (LoadEvent.starts m :: (inner ++ LoadEvent.defines m :: after)) x := by
  rcases starts_mem_events.mp hx with rfl | hx | hx
  · refine ⟨[], inner, after, rfl, fun y => ?_, fun y hy => (htop.defines_iff y).mpr hy⟩
    rw [htop.starts_iff, List.append_nil]
  · exact hasPhase_append [LoadEvent.starts m] _ (htop.phase x hx)
  · have hphase := hasPhase_append ([LoadEvent.starts m] ++ inner ++ [LoadEvent.defines m]) []
      (by simpa [List.append_assoc] using htail.phase x hx)
    simpa using hphase

include hfree

/-- A started module is the imported one or reached by it. -/
theorem reached_events (hx : LoadEvent.starts x ∈ LoadEvent.starts m :: (inner ++ LoadEvent.defines m :: after)) :
    g.Reaches trace [m] x := by
  rcases starts_mem_events.mp hx with rfl | hx | hx
  · exact ⟨x, List.mem_singleton_self x, hfree, .refl⟩
  · have hreaches : g.Reaches trace (g.top m) x :=
      (htop.reached x hx).mono (fun y hy => List.mem_append_left _ hy) fun _ h => h
    exact hreaches.cons hfree fun y hy => List.mem_append_left _ hy
  · have hreaches : g.Reaches trace (g.tail m) x :=
      (htail.reached x hx).mono (fun y hy => by simp [hy]) fun _ h => h
    exact hreaches.cons hfree fun y hy => List.mem_append_right _ hy

/-- An unstarted module is imported by starting it, importing its top, defining it and importing its tail. -/
theorem start : g.Loads trace (LoadEvent.starts m :: (inner ++ LoadEvent.defines m :: after)) [m] where
  nodup := nodup_events htop htail
  fresh := by
    intro x hx
    rcases starts_mem_events.mp hx with rfl | hx | hx
    · exact hfree
    · exact fun hmem => htop.fresh x hx (by simp [hmem])
    · exact fun hmem => htail.fresh x hx (by simp [hmem])
  defines_iff := by
    intro x
    rw [starts_mem_events, ← htop.defines_iff, ← htail.defines_iff]
    simp only [List.mem_cons, List.mem_append, reduceCtorEq, LoadEvent.defines.injEq, false_or]
    exact or_left_comm
  started := fun x hx => by simp [List.mem_singleton.mp hx]
  reached := fun _ hx => reached_events hfree htop htail hx
  closed := fun _ _ hx hy => closed_events htop htail hx hy
  phase := fun _ hx => phase_events htop htail hx

end Start

end Loads

section Depth

variable [DecidableEq α] {nodes : List α} {depth : Nat}

/-- The listed modules that are not started. -/
def unstarted (nodes : List α) (trace : List (LoadEvent α)) : List α :=
  nodes.filter fun m => .starts m ∉ trace

/-- Later fewer modules are not started. -/
theorem length_unstarted_append_le :
    (unstarted nodes (trace ++ events)).length ≤ (unstarted nodes trace).length := by
  refine List.Sublist.length_le (List.monotone_filter_right nodes fun m hm => ?_)
  simp only [List.mem_append, decide_eq_true_eq, not_or] at hm ⊢
  exact hm.1

/-- Starting a listed module leaves fewer that are not started. -/
theorem length_unstarted_lt (hm : m ∈ nodes) (hfree : LoadEvent.starts m ∉ trace) :
    (unstarted nodes (trace ++ [LoadEvent.starts m])).length < (unstarted nodes trace).length := by
  have hfilter : unstarted nodes (trace ++ [LoadEvent.starts m]) =
      (unstarted nodes trace).filter fun x => LoadEvent.starts x ∉ trace ++ [LoadEvent.starts m] := by
    rw [unstarted, unstarted, List.filter_filter]
    apply List.filter_congr
    intro x _
    by_cases hx : LoadEvent.starts x ∈ trace <;> simp [hx]
  rw [hfilter, List.length_filter_lt_length_iff_exists]
  exact ⟨m, by simp [unstarted, hm, hfree], by simp⟩

/-- Targets are imported one after the other, if each of them can be. -/
theorem exists_foldl_load
    (hload : ∀ trace m, (unstarted nodes trace).length < depth →
      ∃ events, g.load depth trace m = trace ++ events ∧ g.Loads trace events [m])
    (hdepth : targets = [] ∨ (unstarted nodes trace).length < depth) :
    ∃ events, targets.foldl (g.load depth) trace = trace ++ events ∧ g.Loads trace events targets := by
  induction targets generalizing trace with
  | nil => exact ⟨[], by simp, .nil⟩
  | cons m targets ih =>
    have hlt := hdepth.resolve_left (List.cons_ne_nil m targets)
    obtain ⟨events, hevents, hloads⟩ := hload trace m hlt
    obtain ⟨events', hevents', hloads'⟩ := ih (Or.inr (Nat.lt_of_le_of_lt length_unstarted_append_le hlt))
    refine ⟨events ++ events', ?_, hloads.append hloads'⟩
    rw [List.foldl_cons, hevents, hevents', List.append_assoc]

/-- A depth above the number of unstarted modules is enough to import a module. -/
theorem exists_load (hnodes : ∀ m, g.imports m ≠ [] → m ∈ nodes)
    (hdepth : (unstarted nodes trace).length < depth) :
    ∃ events, g.load depth trace m = trace ++ events ∧ g.Loads trace events [m] := by
  induction depth generalizing trace m with
  | zero => omega
  | succ depth ih =>
    rw [load]
    split
    next hstarted => exact ⟨[], by simp, .skip hstarted⟩
    next hfree =>
      -- a module that is not listed imports nothing
      have hinner : g.imports m = [] ∨ (unstarted nodes (trace ++ [LoadEvent.starts m])).length < depth := by
        by_cases hm : m ∈ nodes
        · have hlt := length_unstarted_lt hm hfree
          exact Or.inr (by omega)
        · exact Or.inl (by_contra fun hne => hm (hnodes m hne))
      have hload (trace : List (LoadEvent α)) (m : α) (hlt : (unstarted nodes trace).length < depth) :=
        @ih trace m hlt
      obtain ⟨inner, heq, htop⟩ := exists_foldl_load hload
        (hinner.imp_left fun h => (List.append_eq_nil_iff.mp h).1)
      obtain ⟨after, heq', htail⟩ := exists_foldl_load hload <|
        hinner.imp (fun h => (List.append_eq_nil_iff.mp h).2) fun hlt =>
          Nat.lt_of_le_of_lt length_unstarted_append_le hlt
      refine ⟨_, ?_, .start hfree htop htail⟩
      dsimp only
      rw [heq, List.append_assoc _ inner, heq']
      simp

/-- A module that imports something is in the table. -/
theorem mem_table_of_imports_ne_nil {table : List (α × List α × List α)} (h : (ofTable table).imports m ≠ []) :
    m ∈ table.map Prod.fst := by
  cases hfind : table.find? fun entry => entry.1 = m with
  | none => simp [imports, ofTable, hfind] at h
  | some entry =>
    have hname : entry.1 = m := by simpa using List.find?_some hfind
    exact hname ▸ List.mem_map_of_mem (List.mem_of_find?_eq_some hfind)

/-- The events of a table are those of importing the roots. -/
theorem loads_loadTable (table : List (α × List α × List α)) (roots : List α) :
    (ofTable table).Loads [] (loadTable table roots) roots := by
  have hdepth : (unstarted (table.map Prod.fst) []).length < table.length + 1 := by
    have hle := List.length_filter_le (fun m => decide (LoadEvent.starts m ∉ [])) (table.map Prod.fst)
    rw [List.length_map] at hle
    exact Nat.lt_succ_of_le hle
  have hload (trace : List (LoadEvent α)) (m : α)
      (hlt : (unstarted (table.map Prod.fst) trace).length < table.length + 1) :
      ∃ events, (ofTable table).load (table.length + 1) trace m = trace ++ events ∧
        (ofTable table).Loads trace events [m] :=
    exists_load (fun m => mem_table_of_imports_ne_nil) hlt
  obtain ⟨events, hevents, hloads⟩ := exists_foldl_load hload (Or.inr hdepth)
  rw [loadTable, hevents]
  exact hloads

end Depth

/-- Whenever a module becomes defined, another one is defined already. -/
def DefinedFirst (events : List (LoadEvent α)) (p q : α) : Prop :=
  ∀ before after, events = before ++ .defines q :: after → .defines p ∈ before

/-- A module is started while a module that it needs imports its top: modules not started by then lead
from there to it. -/
def TopReaches (g : ImportGraph α) (events : List (LoadEvent α)) (p q : α) : Prop :=
  ∃ before after, events = before ++ .starts p :: after ∧ g.Reaches (before ++ [.starts p]) (g.top p) q

section Positions

variable [DecidableEq α] {l a b : List (LoadEvent α)} {e f : LoadEvent α}

/-- What stands before an event has an earlier position. -/
theorem idxOf_lt_of_mem_before (h : l = a ++ e :: b) (hl : l.Nodup) (hf : f ∈ a) : l.idxOf f < l.idxOf e := by
  subst h
  have he : e ∉ a := fun hmem => (List.nodup_append.mp hl).2.2 e hmem e List.mem_cons_self rfl
  rw [List.idxOf_append_of_mem hf, List.idxOf_append_of_notMem he, List.idxOf_cons_self, Nat.add_zero]
  exact List.idxOf_lt_length_of_mem hf

/-- What stands behind an event has a later position. -/
theorem idxOf_lt_of_mem_after (h : l = a ++ e :: b) (hl : l.Nodup) (hf : f ∈ b) : l.idxOf e < l.idxOf f := by
  obtain ⟨b₁, b₂, rfl⟩ := List.append_of_mem hf
  have hsplit : l = (a ++ e :: b₁) ++ f :: b₂ := by simp [h]
  exact idxOf_lt_of_mem_before hsplit hl (by simp)

/-- A listed event with an earlier position stands before. -/
theorem mem_before_of_idxOf_lt (h : l = a ++ e :: b) (hl : l.Nodup) (hf : f ∈ l) (hlt : l.idxOf f < l.idxOf e) :
    f ∈ a := by
  have hmem : f ∈ a ++ e :: b := h ▸ hf
  rcases List.mem_append.mp hmem with hmem | hmem
  · exact hmem
  · rcases List.mem_cons.mp hmem with rfl | hmem
    · omega
    · have hgt := idxOf_lt_of_mem_after h hl hmem
      omega

/-- An event stands at one place. -/
theorem before_unique {a' b' : List (LoadEvent α)} (h : l = a ++ e :: b) (h' : l = a' ++ e :: b') (hl : l.Nodup) :
    a = a' := by
  have ha : e ∉ a := fun hmem => Nat.lt_irrefl _ (idxOf_lt_of_mem_before h hl hmem)
  have ha' : e ∉ a' := fun hmem => Nat.lt_irrefl _ (idxOf_lt_of_mem_before h' hl hmem)
  have hlength : a.length = a'.length := by
    have hidx := congrArg (List.idxOf e) (h.symm.trans h')
    simpa [List.idxOf_append_of_notMem ha, List.idxOf_append_of_notMem ha'] using hidx
  exact (List.append_inj (h.symm.trans h') hlength).1

end Positions

/-- A module that is defined before another one once is defined before it always. -/
theorem definedFirst_of_append [DecidableEq α] {p q : α} {before : List (LoadEvent α)} (hnodup : events.Nodup)
    (h : events = before ++ LoadEvent.defines q :: after) (hp : LoadEvent.defines p ∈ before) :
    DefinedFirst events p q := by
  intro before' after' h'
  exact before_unique h h' hnodup ▸ hp

/-- Among events that happen once, being defined first is a matter of positions. -/
theorem definedFirst_iff_idxOf_lt [DecidableEq α] {p q : α} (hnodup : events.Nodup) (hp : LoadEvent.defines p ∈ events)
    (hq : LoadEvent.defines q ∈ events) :
    DefinedFirst events p q ↔ events.idxOf (LoadEvent.defines p) < events.idxOf (LoadEvent.defines q) := by
  constructor
  · intro hfirst
    obtain ⟨before, after, hsplit⟩ := List.append_of_mem hq
    exact idxOf_lt_of_mem_before hsplit hnodup (hfirst before after hsplit)
  · intro hlt before after hsplit
    exact mem_before_of_idxOf_lt hsplit hnodup hp hlt

namespace Loads

variable [DecidableEq α] {roots : List α} {p q : α}

/-- What the top of a module starts is defined before it. -/
theorem idxOf_defines_lt_of_topReaches (h : g.Loads [] events roots) (hp : LoadEvent.starts p ∈ events)
    (hreaches : g.TopReaches events p q) : events.idxOf (LoadEvent.defines q) < events.idxOf (LoadEvent.defines p) := by
  obtain ⟨a, inner, b, heq, hinner, hdefined⟩ := h.phase p hp
  obtain ⟨before, after, hsplit, hreaches⟩ := hreaches
  obtain rfl := before_unique heq hsplit h.nodup
  have hq : LoadEvent.defines q ∈ inner := hdefined q ((hinner q).mpr (by simpa using hreaches))
  have hdefines : events = (a ++ LoadEvent.starts p :: inner) ++ LoadEvent.defines p :: b := by simp [heq]
  exact idxOf_lt_of_mem_before hdefines h.nodup (List.mem_append_right _ (List.mem_cons_of_mem _ hq))

/-- A module that is started before another one is defined before that is started, unless its top leads
there. -/
theorem starts_mem_after_of_not_topReaches {a inner b : List (LoadEvent α)} (h : g.Loads [] events roots)
    (heq : events = a ++ LoadEvent.starts p :: (inner ++ LoadEvent.defines p :: b))
    (hinner : ∀ y, LoadEvent.starts y ∈ inner ↔ g.Reaches (a ++ [LoadEvent.starts p]) (g.top p) y)
    (hq : LoadEvent.starts q ∈ events)
    (hlt : events.idxOf (LoadEvent.starts p) < events.idxOf (LoadEvent.starts q)) (hnot : ¬ g.TopReaches events p q) :
    LoadEvent.starts q ∈ b := by
  have hmem : LoadEvent.starts q ∈ a ++ LoadEvent.starts p :: (inner ++ LoadEvent.defines p :: b) := heq ▸ hq
  rcases List.mem_append.mp hmem with hmem | hmem
  · have hgt := idxOf_lt_of_mem_before heq h.nodup hmem
    omega
  · simp only [List.mem_cons, List.mem_append, LoadEvent.starts.injEq, reduceCtorEq, false_or] at hmem
    rcases hmem with rfl | hmem | hmem
    · omega
    · exact absurd ⟨a, _, heq, (hinner q).mp hmem⟩ hnot
    · exact hmem

/-- A module at the top of another one is defined before it, if its own top does not lead there. -/
theorem idxOf_defines_lt_of_not_topReaches (h : g.Loads [] events roots) (hne : p ≠ q) (htop : p ∈ g.top q)
    (hp : LoadEvent.starts p ∈ events) (hq : LoadEvent.starts q ∈ events) (hnot : ¬ g.TopReaches events p q) :
    events.idxOf (LoadEvent.defines p) < events.idxOf (LoadEvent.defines q) := by
  obtain ⟨a, inner, b, heq, hinner, hdefined⟩ := h.phase q hq
  have hdefines : events = (a ++ LoadEvent.starts q :: inner) ++ LoadEvent.defines q :: b := by simp [heq]
  by_cases hstarted : LoadEvent.starts p ∈ a
  · -- `p` is started before `q`, and `q` not before `p` is defined
    have hstarts := idxOf_lt_of_mem_before heq h.nodup hstarted
    have hphase := idxOf_lt_of_mem_before (f := LoadEvent.starts q) hdefines h.nodup (by simp)
    obtain ⟨a', inner', b', heq', hinner', -⟩ := h.phase p hp
    have hdefines' : events = (a' ++ LoadEvent.starts p :: inner') ++ LoadEvent.defines p :: b' := by simp [heq']
    have hlate := h.starts_mem_after_of_not_topReaches heq' (by simpa using hinner') hq hstarts hnot
    have hlt := idxOf_lt_of_mem_after hdefines' h.nodup hlate
    omega
  · -- `p` is started by the top of `q`, and defined there
    have hfree : LoadEvent.starts p ∉ [] ++ a ++ [LoadEvent.starts q] := by simp [hstarted, hne]
    have hmem : LoadEvent.defines p ∈ inner := hdefined p ((hinner p).mpr ⟨p, htop, hfree, .refl⟩)
    exact idxOf_lt_of_mem_before hdefines h.nodup (List.mem_append_right _ (List.mem_cons_of_mem _ hmem))

/-- A module that is imported at the top of another one is defined before it, unless its own top leads to
that one. -/
theorem definedFirst_iff (h : g.Loads [] events roots) (hne : p ≠ q) (htop : p ∈ g.top q)
    (hq : LoadEvent.starts q ∈ events) : DefinedFirst events p q ↔ ¬ g.TopReaches events p q := by
  have hp : LoadEvent.starts p ∈ events := by simpa using h.closed q p hq (List.mem_append_left _ htop)
  rw [definedFirst_iff_idxOf_lt h.nodup ((h.defines_iff p).mpr hp) ((h.defines_iff q).mpr hq)]
  constructor
  · intro hlt hreaches
    have hgt := h.idxOf_defines_lt_of_topReaches hp hreaches
    omega
  · exact h.idxOf_defines_lt_of_not_topReaches hne htop hp hq

end Loads

end ImportGraph

end OntologyCompiler
