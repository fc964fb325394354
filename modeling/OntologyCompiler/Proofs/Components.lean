import Mathlib.Data.List.Nodup
import Mathlib.Data.List.Perm.Subperm
import Mathlib.Logic.Relation
import OntologyCompiler.Graph

/-!
# Components of a graph

Growing a list of nodes by their successors adds a node at every step until nothing is left to add, so
as many steps as there are nodes find everything that can be reached. Reaching each other is therefore
transitive on the nodes. A search finishes all it starts, and it starts every node, so every node is in
a component.
-/

namespace OntologyCompiler.Digraph

variable {α : Type} {g : Digraph α} {s : List α} {v w x : α} {n : Nat}

/-- The second node is a successor of the first. -/
def Edge (g : Digraph α) (v w : α) : Prop := w ∈ g.successors v

/-- Successors of nodes are nodes. -/
def Closed (g : Digraph α) : Prop := ∀ v ∈ g.nodes, ∀ w, g.Edge v w → w ∈ g.nodes

/-- What can be reached from a node is a node. -/
theorem Closed.mem_nodes (hg : g.Closed) (hv : v ∈ g.nodes) (hpath : Relation.ReflTransGen g.Edge v w) :
    w ∈ g.nodes := by
  induction hpath with
  | refl => exact hv
  | tail _ hedge ih => exact hg _ ih _ hedge

section Growth

variable [DecidableEq α]

/-- Adding what is missing adds exactly the given items. -/
theorem mem_foldl_add {l : List α} :
    x ∈ l.foldl (fun acc v => if v ∈ acc then acc else acc ++ [v]) s ↔ x ∈ s ∨ x ∈ l := by
  induction l generalizing s with
  | nil => simp
  | cons v l ih =>
    rw [List.foldl_cons, ih]
    by_cases hv : v ∈ s
    · rw [if_pos hv, List.mem_cons]
      refine ⟨fun h => h.imp_right Or.inr, fun h => ?_⟩
      rcases h with h | rfl | h
      · exact Or.inl h
      · exact Or.inl hv
      · exact Or.inr h
    · simp [hv, or_assoc]

/-- Adding what is missing repeats nothing. -/
theorem nodup_foldl_add {l : List α} (h : s.Nodup) :
    (l.foldl (fun acc v => if v ∈ acc then acc else acc ++ [v]) s).Nodup := by
  induction l generalizing s with
  | nil => exact h
  | cons v l ih =>
    rw [List.foldl_cons]
    apply ih
    by_cases hv : v ∈ s
    · simpa [hv] using h
    · rw [if_neg hv]
      refine List.nodup_append.mpr ⟨h, List.nodup_singleton v, fun a ha b hb heq => hv ?_⟩
      rwa [← List.mem_singleton.mp hb, ← heq]

/-- Growing adds the successors. -/
theorem mem_grow : x ∈ g.grow s ↔ x ∈ s ∨ ∃ v ∈ s, g.Edge v x := by
  rw [grow, mem_foldl_add, List.mem_flatMap]
  rfl

/-- Growing a list once repeats nothing. -/
theorem nodup_grow (h : s.Nodup) : (g.grow s).Nodup := nodup_foldl_add h

/-- A list with a missing successor gets longer. -/
theorem length_lt_length_grow (h : s.Nodup) (hv : v ∈ s) (hedge : g.Edge v x) (hx : x ∉ s) :
    s.length < (g.grow s).length := by
  have hnew : (x :: s).Nodup := List.nodup_cons.mpr ⟨hx, h⟩
  have hsubset : x :: s ⊆ g.grow s := by
    refine List.cons_subset.mpr ⟨mem_grow.mpr (Or.inr ⟨v, hv, hedge⟩), fun y hy => ?_⟩
    exact mem_grow.mpr (Or.inl hy)
  exact (List.subperm_of_subset hnew hsubset).length_le

/-- Growing keeps what is there. -/
theorem mem_growFor_of_mem (h : x ∈ s) : x ∈ g.growFor n s := by
  induction n generalizing s with
  | zero => exact h
  | succ n ih => exact ih (mem_grow.mpr (Or.inl h))

/-- Growing repeats nothing. -/
theorem nodup_growFor (h : s.Nodup) : (g.growFor n s).Nodup := by
  induction n generalizing s with
  | zero => exact h
  | succ n ih => exact ih (nodup_grow h)

/-- Growing finds only what can be reached. -/
theorem exists_path_of_mem_growFor (h : x ∈ g.growFor n s) : ∃ v ∈ s, Relation.ReflTransGen g.Edge v x := by
  induction n generalizing s with
  | zero => exact ⟨x, h, .refl⟩
  | succ n ih =>
    obtain ⟨v, hv, hpath⟩ := ih h
    rcases mem_grow.mp hv with hv | ⟨u, hu, hedge⟩
    · exact ⟨v, hv, hpath⟩
    · exact ⟨u, hu, .head hedge hpath⟩

/-- A list with all its successors does not grow. -/
theorem mem_growFor_of_closed (h : ∀ v ∈ s, ∀ x, g.Edge v x → x ∈ s) : x ∈ g.growFor n s ↔ x ∈ s := by
  induction n generalizing s with
  | zero => exact Iff.rfl
  | succ n ih =>
    have hsame (y : α) : y ∈ g.grow s ↔ y ∈ s := by
      rw [mem_grow]
      exact or_iff_left_of_imp fun ⟨v, hv, hedge⟩ => h v hv y hedge
    rw [growFor, ih fun v hv y hedge => (hsame y).mpr (h v ((hsame v).mp hv) y hedge), hsame]

/-- Growing ends with all successors or adds a node at every step. -/
theorem closed_or_length_le_growFor (h : s.Nodup) :
    (∀ v ∈ g.growFor n s, ∀ x, g.Edge v x → x ∈ g.growFor n s) ∨ s.length + n ≤ (g.growFor n s).length := by
  induction n generalizing s with
  | zero => exact Or.inr (Nat.le_refl _)
  | succ n ih =>
    by_cases hclosed : ∀ v ∈ s, ∀ x, g.Edge v x → x ∈ s
    · apply Or.inl
      intro v hv x hedge
      rw [mem_growFor_of_closed hclosed] at hv ⊢
      exact hclosed v hv x hedge
    · push Not at hclosed
      obtain ⟨v, hv, x, hedge, hx⟩ := hclosed
      have hlt := length_lt_length_grow h hv hedge hx
      apply (ih (nodup_grow h)).imp_right
      intro hle
      rw [growFor]
      omega

/-- The nodes found from a node are those that can be reached. -/
theorem mem_reach_iff (hg : g.Closed) (hv : v ∈ g.nodes) : w ∈ g.reach v ↔ Relation.ReflTransGen g.Edge v w := by
  have hsound {x : α} (h : x ∈ g.reach v) : Relation.ReflTransGen g.Edge v x := by
    obtain ⟨u, hu, hpath⟩ := exists_path_of_mem_growFor h
    exact List.mem_singleton.mp hu ▸ hpath
  refine ⟨hsound, fun hpath => ?_⟩
  have hsubset : g.reach v ⊆ g.nodes := fun x hx => hg.mem_nodes hv (hsound hx)
  have hlength : (g.reach v).length ≤ g.nodes.length :=
    (List.subperm_of_subset (nodup_growFor (List.nodup_singleton v)) hsubset).length_le
  have hclosed : ∀ v' ∈ g.reach v, ∀ x, g.Edge v' x → x ∈ g.reach v := by
    apply (closed_or_length_le_growFor (List.nodup_singleton v)).resolve_right
    intro hle
    change 1 + g.nodes.length ≤ (g.reach v).length at hle
    omega
  induction hpath with
  | refl => exact mem_growFor_of_mem (List.mem_singleton_self v)
  | tail _ hedge ih => exact hclosed _ ih _ hedge

/-- Nodes are connected if each can be reached from the other. -/
theorem connected_iff (hg : g.Closed) (hv : v ∈ g.nodes) (hw : w ∈ g.nodes) :
    g.connected v w = true ↔ Relation.ReflTransGen g.Edge v w ∧ Relation.ReflTransGen g.Edge w v := by
  rw [connected, Bool.and_eq_true, decide_eq_true_eq, decide_eq_true_eq, mem_reach_iff hg hv, mem_reach_iff hg hw]

/-- What is connected to a node is a node. -/
theorem mem_nodes_of_connected (hg : g.Closed) (hv : v ∈ g.nodes) (h : g.connected v w = true) : w ∈ g.nodes := by
  rw [connected, Bool.and_eq_true, decide_eq_true_eq, mem_reach_iff hg hv] at h
  exact hg.mem_nodes hv h.1

/-- Connection is symmetric. -/
theorem connected_symm (h : g.connected v w = true) : g.connected w v = true := by
  rwa [connected, Bool.and_comm]

/-- Connection is transitive. -/
theorem connected_trans (hg : g.Closed) (hv : v ∈ g.nodes) (h : g.connected v w = true)
    (h' : g.connected w x = true) : g.connected v x = true := by
  have hw := mem_nodes_of_connected hg hv h
  have hx := mem_nodes_of_connected hg hw h'
  obtain ⟨hvw, hwv⟩ := (connected_iff hg hv hw).mp h
  obtain ⟨hwx, hxw⟩ := (connected_iff hg hw hx).mp h'
  exact (connected_iff hg hv hx).mpr ⟨hvw.trans hwx, hxw.trans hwv⟩

end Growth

/-- A later state of a search has all that was started and finished, and what was started since is finished. -/
structure Search.Completes (s s' : Search α) : Prop where
  started : ∀ x ∈ s.started, x ∈ s'.started
  finished : ∀ x ∈ s.finished, x ∈ s'.finished
  new : ∀ x ∈ s'.started, x ∈ s.started ∨ x ∈ s'.finished

namespace Search.Completes

variable {s s' s'' : Search α}

/-- Nothing is done. -/
theorem refl : Completes s s := ⟨fun _ h => h, fun _ h => h, fun _ h => Or.inl h⟩

/-- One state after the other is reached. -/
theorem trans (h : Completes s s') (h' : Completes s' s'') : Completes s s'' where
  started := fun x hx => h'.started x (h.started x hx)
  finished := fun x hx => h'.finished x (h.finished x hx)
  new := by
    intro x hx
    rcases h'.new x hx with hx | hx
    · exact (h.new x hx).imp_right (h'.finished x)
    · exact Or.inr hx

/-- Visits that complete what they start complete it together. -/
theorem foldl {visit : Search α → α → Search α} (h : ∀ s v, Completes s (visit s v)) (l : List α) (s : Search α) :
    Completes s (l.foldl visit s) := by
  induction l generalizing s with
  | nil => exact refl
  | cons v l ih => exact (h s v).trans (ih (visit s v))

end Search.Completes

/-- An item that is in relation with a listed one is in a class. -/
theorem mem_flatten_classesAtLast {same : α → α → Bool} {all l : List α}
    (hsymm : ∀ a b, same a b = true → same b a = true)
    (htrans : ∀ a b, same x a = true → same a b = true → same x b = true) (hx : x ∈ all)
    (hw : ∃ w ∈ l, same x w = true) : x ∈ (classesAtLast same all l).flatten := by
  induction l with
  | nil => simp at hw
  | cons v l ih =>
    obtain ⟨w, hw, hsame⟩ := hw
    rw [classesAtLast]
    split
    next hlater =>
      obtain ⟨u, hu, hvu⟩ := List.any_eq_true.mp hlater
      rcases List.mem_cons.mp hw with rfl | hw
      · exact ih ⟨u, hu, htrans w u hsame hvu⟩
      · exact ih ⟨w, hw, hsame⟩
    next =>
      rw [List.flatten_cons, List.mem_append]
      rcases List.mem_cons.mp hw with rfl | hw
      · exact Or.inl (List.mem_filter.mpr ⟨hx, hsymm x w hsame⟩)
      · exact Or.inr (ih ⟨w, hw, hsame⟩)

section Order

variable [DecidableEq α]

/-- A visit completes what it starts. -/
theorem completes_visit (s : Search α) (v : α) : s.Completes (g.visit n s v) := by
  induction n generalizing s v with
  | zero => exact .refl
  | succ n ih =>
    rw [visit]
    split
    next => exact .refl
    next =>
      have hinner := Search.Completes.foldl ih (g.successors v) { s with started := v :: s.started }
      refine
        { started := fun x hx => hinner.started x (List.mem_cons_of_mem v hx)
          finished := fun x hx => List.mem_append_left _ (hinner.finished x hx)
          new := fun x hx => ?_ }
      rcases hinner.new x hx with hx | hx
      · rcases List.mem_cons.mp hx with rfl | hx
        · exact Or.inr (List.mem_append_right _ (List.mem_singleton_self x))
        · exact Or.inl hx
      · exact Or.inr (List.mem_append_left _ hx)

/-- A visited node is started. -/
theorem mem_started_visit (s : Search α) : v ∈ (g.visit (n + 1) s v).started := by
  rw [visit]
  split
  next h => exact h
  next =>
    exact (Search.Completes.foldl completes_visit (g.successors v) _).started v List.mem_cons_self

/-- Every node is finished. -/
theorem mem_postorder (hv : v ∈ g.nodes) : v ∈ g.postorder := by
  have hstarted (l : List α) (s : Search α) (hv : v ∈ l) :
      v ∈ (l.foldl (g.visit (g.nodes.length + 1)) s).started := by
    induction l generalizing s with
    | nil => cases hv
    | cons w l ih =>
      rcases List.mem_cons.mp hv with rfl | hv
      · exact (Search.Completes.foldl completes_visit l _).started v (mem_started_visit s)
      · exact ih _ hv
  have hall := Search.Completes.foldl (@completes_visit _ g (g.nodes.length + 1) _) g.nodes ⟨[], []⟩
  exact (hall.new v (hstarted g.nodes _ hv)).resolve_left List.not_mem_nil

/-- Every node is in a component. -/
theorem mem_flatten_components (hg : g.Closed) (hv : v ∈ g.nodes) : v ∈ g.components.flatten := by
  have hself : g.connected v v = true := (connected_iff hg hv hv).mpr ⟨.refl, .refl⟩
  refine mem_flatten_classesAtLast (fun a b => connected_symm) (fun a b => ?_) (mem_postorder hv)
    ⟨v, mem_postorder hv, hself⟩
  exact connected_trans hg hv

end Order

end OntologyCompiler.Digraph
