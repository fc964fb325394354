import Mathlib.Data.List.Dedup
import OntologyCompiler.Proofs.Components

/-!
# Components of equal graphs

Graphs may list the successors of a node in different order. Then a search meets the nodes in another order,
but it finishes the same nodes, each of them once, and nodes are connected as before. So the components are
the same but for their order and that of their members.
-/

namespace OntologyCompiler.Digraph

variable {α : Type} {g g' : Digraph α}

/-- What is finished was started, and nothing is finished twice. -/
structure Search.Tidy (s : Search α) : Prop where
  nodup : s.finished.Nodup
  started : ∀ x ∈ s.finished, x ∈ s.started

/-- A search that goes on stays tidy and does not finish what was started before. -/
structure Search.Continues (s s' : Search α) : Prop where
  tidy : s'.Tidy
  started : ∀ x ∈ s.started, x ∈ s'.started
  unfinished : ∀ x ∈ s.started, x ∈ s'.finished → x ∈ s.finished

namespace Search

variable {s s' s'' : Search α}

/-- Nothing is done. -/
theorem Tidy.refl (h : s.Tidy) : Continues s s := ⟨h, fun _ hx => hx, fun _ _ hx => hx⟩

/-- One state after the other is reached. -/
theorem Continues.trans (h : Continues s s') (h' : Continues s' s'') : Continues s s'' where
  tidy := h'.tidy
  started := fun x hx => h'.started x (h.started x hx)
  unfinished := fun x hx hfinished => h.unfinished x hx (h'.unfinished x (h.started x hx) hfinished)

/-- Visits that continue a search continue it together. -/
theorem Tidy.foldl {visit : Search α → α → Search α} (hvisit : ∀ s v, s.Tidy → Continues s (visit s v))
    (l : List α) (h : s.Tidy) : Continues s (l.foldl visit s) := by
  induction l generalizing s with
  | nil => exact h.refl
  | cons v l ih =>
    have hfirst := hvisit s v h
    exact hfirst.trans (ih hfirst.tidy)

/-- A visit continues a search. -/
theorem Tidy.visit [DecidableEq α] (h : s.Tidy) (n : ℕ) (v : α) : Continues s (g.visit n s v) := by
  induction n generalizing s v with
  | zero => exact h.refl
  | succ n ih =>
    rw [Digraph.visit]
    split
    next => exact h.refl
    next hnew =>
      have hmarked : Tidy { s with started := v :: s.started } :=
        ⟨h.nodup, fun x hx => List.mem_cons_of_mem v (h.started x hx)⟩
      have hinner := hmarked.foldl (fun s w hs => ih hs w) (g.successors v)
      have hunfinished : v ∉ ((g.successors v).foldl (g.visit n) { s with started := v :: s.started }).finished :=
        fun hv => hnew (h.started v (hinner.unfinished v List.mem_cons_self hv))
      refine ⟨⟨?_, fun x hx => ?_⟩, fun x hx => hinner.started x (List.mem_cons_of_mem v hx), fun x hx hfinished => ?_⟩
      · refine List.nodup_append.mpr ⟨hinner.tidy.nodup, List.nodup_singleton v, fun a ha b hb heq => ?_⟩
        rw [heq, List.mem_singleton.mp hb] at ha
        exact hunfinished ha
      · rcases List.mem_append.mp hx with hx | hx
        · exact hinner.tidy.started x hx
        · exact hinner.started x (List.mem_singleton.mp hx ▸ List.mem_cons_self)
      · rcases List.mem_append.mp hfinished with hfinished | hfinished
        · exact hinner.unfinished x (List.mem_cons_of_mem v hx) hfinished
        · exact absurd (List.mem_singleton.mp hfinished ▸ hx) hnew

end Search

section Nodes

variable [DecidableEq α]

/-- A search that visits nodes starts nothing but nodes. -/
theorem mem_nodes_of_mem_started (hg : g.Closed) (n : ℕ) (l : List α) (s : Search α) (hl : ∀ v ∈ l, v ∈ g.nodes)
    (hs : ∀ x ∈ s.started, x ∈ g.nodes) : ∀ x ∈ (l.foldl (g.visit n) s).started, x ∈ g.nodes := by
  induction n generalizing l s with
  | zero =>
    induction l generalizing s with
    | nil => exact hs
    | cons v l ih => exact ih s (fun w hw => hl w (List.mem_cons_of_mem v hw)) hs
  | succ n ihdepth =>
    induction l generalizing s with
    | nil => exact hs
    | cons v l ih =>
      have hv := hl v List.mem_cons_self
      refine ih _ (fun w hw => hl w (List.mem_cons_of_mem v hw)) ?_
      rw [visit]
      split
      next => exact hs
      next =>
        refine ihdepth _ _ (fun w hw => hg v hv w hw) fun x hx => ?_
        rcases List.mem_cons.mp hx with rfl | hx
        · exact hv
        · exact hs x hx

/-- A search over all nodes finishes each of them once. -/
theorem perm_postorder (hg : g.Closed) (hnodup : g.nodes.Nodup) : g.postorder.Perm g.nodes := by
  have hstart : Search.Tidy (⟨[], []⟩ : Search α) := ⟨List.nodup_nil, fun x hx => hx⟩
  have hall := hstart.foldl (fun s v hs => hs.visit (g := g) (g.nodes.length + 1) v) g.nodes
  refine (List.perm_ext_iff_of_nodup hall.tidy.nodup hnodup).mpr fun x => ⟨fun hx => ?_, mem_postorder⟩
  exact mem_nodes_of_mem_started hg _ g.nodes ⟨[], []⟩ (fun v hv => hv) (fun x hx => absurd hx List.not_mem_nil) x
    (hall.tidy.started x hx)

/-- Graphs with the same nodes and edges connect the same nodes. -/
theorem connected_eq (hnodes : g'.nodes = g.nodes) (hedge : ∀ v w, g'.Edge v w ↔ g.Edge v w) :
    g'.connected = g.connected := by
  have hgrow (x : α) (n : ℕ) (s s' : List α) (hs : ∀ x, x ∈ s' ↔ x ∈ s) : x ∈ g'.growFor n s' ↔ x ∈ g.growFor n s := by
    induction n generalizing s s' with
    | zero => exact hs x
    | succ n ih =>
      refine ih _ _ fun y => ?_
      simp only [mem_grow, hs, hedge]
  have hreach (v w : α) : w ∈ g'.reach v ↔ w ∈ g.reach v := by
    rw [reach, reach, hnodes]
    exact hgrow w _ _ _ fun y => Iff.rfl
  funext v w
  rw [connected, connected]
  simp only [hreach]

end Nodes

/-- The classes of a relation as seen by a view that tells them apart: each of them once. -/
theorem map_classesAtLast {β : Type} [DecidableEq β] {same : α → α → Bool} {all l : List α}
    {view : List α → β} {seen : α → β} (hview : ∀ v ∈ l, view (all.filter (same v)) = seen v)
    (hsame : ∀ v ∈ l, ∀ w ∈ l, same v w = true ↔ seen w = seen v) :
    (classesAtLast same all l).map view = (l.map seen).dedup := by
  induction l with
  | nil => rfl
  | cons v l ih =>
    have hrest := ih (fun w hw => hview w (List.mem_cons_of_mem v hw))
      (fun w hw x hx => hsame w (List.mem_cons_of_mem v hw) x (List.mem_cons_of_mem v hx))
    have hlater : l.any (same v) = true ↔ seen v ∈ l.map seen := by
      rw [List.any_eq_true, List.mem_map]
      exact exists_congr fun w => and_congr_right fun hw =>
        hsame v List.mem_cons_self w (List.mem_cons_of_mem v hw)
    rw [classesAtLast, List.map_cons]
    by_cases hagain : l.any (same v) = true
    · rw [if_pos hagain, hrest, List.dedup_cons_of_mem (hlater.mp hagain)]
    · rw [if_neg hagain, List.map_cons, hrest, hview v List.mem_cons_self,
        List.dedup_cons_of_notMem (mt hlater.mpr hagain)]

end OntologyCompiler.Digraph
