import OntologyCompiler.Proofs.Groups

/-!
# The order in which a search finishes

A node that is started but not finished is open. The open nodes lie on the way to the node that is visited, so
each of them reaches it. When a node is finished, whatever it reaches is finished before it, unless an open node
stands in the way; that node is reached too and reaches back, so it belongs to the same component and is
finished later. Hence the last node of a component to be finished comes after everything that it reaches, and
components come in the order of their last nodes.
-/

namespace OntologyCompiler.Digraph

variable {α : Type} {g : Digraph α} {s s' s'' : Search α} {v w x : α} {n : ℕ} {l : List α}

/-- The second node is reached from the first. -/
abbrev Reaches (g : Digraph α) : α → α → Prop := Relation.ReflTransGen g.Edge

namespace Search

/-- A later state of a search adds to both lists. -/
structure Grows (s s' : Search α) : Prop where
  started : s.started <:+ s'.started
  finished : s.finished <+: s'.finished

/-- Nothing is added. -/
theorem Grows.refl : Grows s s := ⟨List.suffix_rfl, List.prefix_rfl⟩

/-- One state after the other is reached. -/
theorem Grows.trans (h : Grows s s') (h' : Grows s' s'') : Grows s s'' :=
  ⟨h.started.trans h'.started, h.finished.trans h'.finished⟩

/-- Visits that add to the lists add to them together. -/
theorem Grows.foldl {visit : Search α → α → Search α} (h : ∀ s v, Grows s (visit s v)) (l : List α) (s : Search α) :
    Grows s (l.foldl visit s) := by
  induction l generalizing s with
  | nil => exact .refl
  | cons v l ih => exact (h s v).trans (ih (visit s v))

/-- A node is started and not finished. -/
def Open (s : Search α) (x : α) : Prop := x ∈ s.started ∧ x ∉ s.finished

/-- The nodes that are started are nodes, each once; successors of finished nodes are started; and what a finished
node reaches is finished before it, unless another node of its component is not. -/
structure Sound (g : Digraph α) (s : Search α) : Prop where
  nodup : s.started.Nodup
  nodes : ∀ x ∈ s.started, x ∈ g.nodes
  started : ∀ x ∈ s.finished, x ∈ s.started
  closed : ∀ x ∈ s.finished, ∀ w, g.Edge x w → w ∈ s.started
  order : ∀ before x, before ++ [x] <+: s.finished → ∀ w, g.Reaches x w →
    w ∈ before ∨ w = x ∨ ∃ u ∈ s.started, u ∉ before ∧ u ≠ x ∧ g.Reaches x u ∧ g.Reaches u x

/-- Before the first visit nothing is started. -/
theorem Sound.start : Sound g ⟨[], []⟩ where
  nodup := List.nodup_nil
  nodes := fun _ hx => nomatch hx
  started := fun _ hx => nomatch hx
  closed := fun _ hx => nomatch hx
  order := by simp

/-- No more nodes are started than there are. -/
theorem Sound.length_le (h : s.Sound g) : s.started.length ≤ g.nodes.length :=
  (List.subperm_of_subset h.nodup h.nodes).length_le

/-- A new node is opened. -/
theorem Sound.mark (h : s.Sound g) (hv : v ∈ g.nodes) (hnew : v ∉ s.started) :
    Sound g { s with started := v :: s.started } where
  nodup := List.nodup_cons.mpr ⟨hnew, h.nodup⟩
  nodes := List.forall_mem_cons.mpr ⟨hv, h.nodes⟩
  started := fun x hx => List.mem_cons_of_mem v (h.started x hx)
  closed := fun x hx w hw => List.mem_cons_of_mem v (h.closed x hx w hw)
  order := by
    intro before x hbefore w hw
    rcases h.order before x hbefore w hw with hw | hw | ⟨u, hu, hrest⟩
    · exact .inl hw
    · exact .inr (.inl hw)
    · exact .inr (.inr ⟨u, List.mem_cons_of_mem v hu, hrest⟩)

/-- What a node reaches whose successors are all started is finished, the node itself, or reached through an open
node. -/
theorem Sound.mem_or_open (h : s.Sound g) (hv : ∀ w, g.Edge v w → w ∈ s.started) (hw : g.Reaches v w) :
    w ∈ s.finished ∨ w = v ∨ ∃ u, s.Open u ∧ u ≠ v ∧ g.Reaches v u := by
  -- The first node on the way that is neither finished nor the start is a successor of one that is, so it is started.
  induction hw with
  | refl => exact .inr (.inl rfl)
  | @tail y w hy hedge ih =>
    have hstarted (hyw : w ∈ s.started) : w ∈ s.finished ∨ w = v ∨ ∃ u, s.Open u ∧ u ≠ v ∧ g.Reaches v u := by
      by_cases hfinished : w ∈ s.finished
      · exact .inl hfinished
      · by_cases heq : w = v
        · exact .inr (.inl heq)
        · exact .inr (.inr ⟨w, ⟨hyw, hfinished⟩, heq, hy.tail hedge⟩)
    rcases ih with hy | rfl | hopen
    · exact hstarted (h.closed y hy w hedge)
    · exact hstarted (hv w hedge)
    · exact .inr (.inr hopen)

/-- A node is finished when all its successors are started and every open node reaches it. -/
theorem Sound.finish (h : s.Sound g) (hv : v ∈ s.started) (hsuccessors : ∀ w, g.Edge v w → w ∈ s.started)
    (hopen : ∀ u, s.Open u → g.Reaches u v) : Sound g { s with finished := s.finished ++ [v] } where
  nodup := h.nodup
  nodes := h.nodes
  started := by
    intro x hx
    rcases List.mem_append.mp hx with hx | hx
    · exact h.started x hx
    · exact List.mem_singleton.mp hx ▸ hv
  closed := by
    intro x hx w hw
    rcases List.mem_append.mp hx with hx | hx
    · exact h.closed x hx w hw
    · exact hsuccessors w (List.mem_singleton.mp hx ▸ hw)
  order := by
    intro before x hbefore w hw
    rcases List.prefix_concat_iff.mp hbefore with heq | hbefore
    · obtain ⟨rfl, hlast⟩ := List.append_inj' heq rfl
      obtain rfl := List.singleton_inj.mp hlast
      rcases h.mem_or_open hsuccessors hw with hw | hw | ⟨u, hu, hne, hreached⟩
      · exact .inl hw
      · exact .inr (.inl hw)
      · exact .inr (.inr ⟨u, hu.1, hu.2, hne, hreached, hopen u hu⟩)
    · exact h.order before x hbefore w hw

end Search

section Visits

variable [DecidableEq α]

/-- A visit adds to both lists. -/
theorem grows_visit (s : Search α) (v : α) : s.Grows (g.visit n s v) := by
  induction n generalizing s v with
  | zero => exact .refl
  | succ n ih =>
    rw [visit]
    split
    next => exact .refl
    next =>
      have hinner := Search.Grows.foldl ih (g.successors v) { s with started := v :: s.started }
      exact ⟨(List.suffix_cons v _).trans hinner.started, hinner.finished.trans (List.prefix_append _ _)⟩

/-- Visits leave the open nodes as they are. -/
theorem open_of_open_foldl (h : (l.foldl (g.visit n) s).Open x) : s.Open x := by
  have hall := Search.Completes.foldl (@completes_visit _ g n _) l s
  refine ⟨(hall.new x h.1).resolve_right h.2, fun hx => h.2 (hall.finished x hx)⟩

/-- A visit starts only what can be reached. -/
theorem reaches_of_mem_started_visit (h : x ∈ (g.visit n s v).started) : x ∈ s.started ∨ g.Reaches v x := by
  induction n generalizing s v with
  | zero => exact .inl h
  | succ n ih =>
    rw [visit] at h
    split at h
    next => exact .inl h
    next =>
      have hfold (l : List α) (s : Search α) (hl : ∀ w ∈ l, g.Edge v w) (h : x ∈ (l.foldl (g.visit n) s).started) :
          x ∈ s.started ∨ g.Reaches v x := by
        induction l generalizing s with
        | nil => exact .inl h
        | cons w l ihl =>
          rcases ihl _ (fun u hu => hl u (List.mem_cons_of_mem w hu)) h with h | h
          · exact (ih h).imp_right fun hw => .head (hl w List.mem_cons_self) hw
          · exact .inr h
      rcases hfold (g.successors v) _ (fun w hw => hw) h with h | h
      · rcases List.mem_cons.mp h with rfl | h
        · exact .inr .refl
        · exact .inl h
      · exact .inr h

/-- Visits to nodes that every open node reaches start them and keep the search sound, given fuel for every node
that is left. -/
theorem Search.Sound.foldl (hvisit : ∀ s v, s.Sound g → v ∈ g.nodes → g.nodes.length < n + s.started.length →
      (∀ u, s.Open u → g.Reaches u v) → (g.visit n s v).Sound g ∧ v ∈ (g.visit n s v).started)
    (h : s.Sound g) (hl : ∀ v ∈ l, v ∈ g.nodes) (hfuel : g.nodes.length < n + s.started.length)
    (hopen : ∀ u, s.Open u → ∀ v ∈ l, g.Reaches u v) :
    (l.foldl (g.visit n) s).Sound g ∧ ∀ v ∈ l, v ∈ (l.foldl (g.visit n) s).started := by
  induction l generalizing s with
  | nil => exact ⟨h, by simp⟩
  | cons v l ih =>
    obtain ⟨hfirst, hv⟩ := hvisit s v h (hl v List.mem_cons_self) hfuel fun u hu => hopen u hu v List.mem_cons_self
    have hmore := (grows_visit (g := g) (n := n) s v).started.length_le
    have hrest := ih hfirst (fun w hw => hl w (List.mem_cons_of_mem v hw)) (by omega) fun u hu w hw =>
      hopen u (open_of_open_foldl (l := [v]) hu) w (List.mem_cons_of_mem v hw)
    refine ⟨hrest.1, List.forall_mem_cons.mpr ⟨?_, hrest.2⟩⟩
    exact (Search.Grows.foldl grows_visit l _).started.subset hv

/-- A visit to a node that every open node reaches starts it and keeps the search sound, given fuel for every node
that is left. -/
theorem Search.Sound.visit (hg : g.Closed) (h : s.Sound g) (hv : v ∈ g.nodes)
    (hfuel : g.nodes.length < n + s.started.length) (hopen : ∀ u, s.Open u → g.Reaches u v) :
    (g.visit n s v).Sound g ∧ v ∈ (g.visit n s v).started := by
  induction n generalizing s v with
  | zero =>
    have hle := h.length_le
    omega
  | succ n ih =>
    refine ⟨?_, mem_started_visit s⟩
    rw [Digraph.visit]
    split
    next => exact h
    next hnew =>
      have hmarked := h.mark hv hnew
      have hreach : ∀ u, Search.Open { s with started := v :: s.started } u → g.Reaches u v := by
        intro u hu
        rcases List.mem_cons.mp hu.1 with rfl | hmem
        · exact .refl
        · exact hopen u ⟨hmem, hu.2⟩
      obtain ⟨hinner, hsuccessors⟩ := hmarked.foldl (l := g.successors v) (fun s v hs => ih hs) (hg v hv)
        (by simp only [List.length_cons]; omega) fun u hu w hw => (hreach u hu).tail hw
      have hstarted : v ∈ ((g.successors v).foldl (g.visit n) { s with started := v :: s.started }).started :=
        (Search.Grows.foldl grows_visit _ _).started.subset List.mem_cons_self
      exact hinner.finish hstarted hsuccessors fun u hu => hreach u (open_of_open_foldl hu)

end Visits

section Classes

variable {C : List α} {same : α → α → Bool} {all : List α}

/-- A class is that of one of the items. -/
theorem exists_of_mem_classesAtLast (h : C ∈ classesAtLast same all l) :
    ∃ v ∈ l, C = all.filter (same v) := by
  induction l with
  | nil => cases h
  | cons v l ih =>
    have hlater (h : C ∈ classesAtLast same all l) : ∃ w ∈ v :: l, C = all.filter (same w) := by
      obtain ⟨w, hw, hC⟩ := ih h
      exact ⟨w, List.mem_cons_of_mem v hw, hC⟩
    rw [classesAtLast] at h
    split at h
    next => exact hlater h
    next =>
      rcases List.mem_cons.mp h with rfl | h
      · exact ⟨v, List.mem_cons_self, rfl⟩
      · exact hlater h

/-- Classes are in relation if the class of an item that has no later item like it is in relation with those of all
later items. -/
theorem pairwise_classesAtLast {related : List α → List α → Prop}
    (h : ∀ before v after, l = before ++ v :: after → (∀ u ∈ after, same v u = false) →
      ∀ w ∈ after, related (all.filter (same v)) (all.filter (same w))) :
    (classesAtLast same all l).Pairwise related := by
  induction l with
  | nil => exact .nil
  | cons v l ih =>
    have hrest := ih fun before w after heq => h (v :: before) w after (by rw [heq, List.cons_append])
    rw [classesAtLast]
    split
    next => exact hrest
    next hlast =>
      refine List.pairwise_cons.mpr ⟨fun C hC => ?_, hrest⟩
      obtain ⟨w, hw, rfl⟩ := exists_of_mem_classesAtLast hC
      exact h [] v l rfl (by simpa using hlast) w hw

end Classes

section Components

variable [DecidableEq α] {before after C : List α}

/-- A search over the first nodes. -/
def searchOver (g : Digraph α) (l : List α) : Search α := l.foldl (g.visit (g.nodes.length + 1)) ⟨[], []⟩

/-- A search over nodes is sound and starts them. -/
theorem sound_searchOver (hg : g.Closed) (hl : ∀ v ∈ l, v ∈ g.nodes) :
    (g.searchOver l).Sound g ∧ ∀ v ∈ l, v ∈ (g.searchOver l).started := by
  refine Search.Sound.start.foldl (fun s v hs hv => hs.visit hg hv) hl (by simp) fun u hu => ?_
  exact absurd hu.1 List.not_mem_nil

/-- Between the visits of a search over nodes nothing is open. -/
theorem mem_finished_searchOver (hx : x ∈ (g.searchOver l).started) : x ∈ (g.searchOver l).finished := by
  have hall := Search.Completes.foldl (@completes_visit _ g (g.nodes.length + 1) _) l ⟨[], []⟩
  exact (hall.new x hx).resolve_left List.not_mem_nil

/-- What a node reaches is finished before it, unless a node of its component is finished after it. -/
theorem mem_before_or_connected (hg : g.Closed) (hpostorder : g.postorder = before ++ v :: after) (hw : g.Reaches v w) :
    w ∈ before ∨ w = v ∨ ∃ u ∈ after, g.connected v u = true := by
  have hsound := (sound_searchOver hg (l := g.nodes) fun v hv => hv).1
  have hfinished : (g.searchOver g.nodes).finished = before ++ v :: after := hpostorder
  have hv : v ∈ (g.searchOver g.nodes).finished := by simp [hfinished]
  have hbefore : before ++ [v] <+: (g.searchOver g.nodes).finished := ⟨after, by simp [hfinished]⟩
  rcases hsound.order before v hbefore w hw with hw | hw | ⟨u, hu, hnot, hne, hvu, huv⟩
  · exact .inl hw
  · exact .inr (.inl hw)
  · refine .inr (.inr ⟨u, ?_, ?_⟩)
    · have humem := mem_finished_searchOver hu
      rw [hfinished] at humem
      simpa [hnot, hne] using humem
    · exact (connected_iff hg (hsound.nodes v (hsound.started v hv)) (hsound.nodes u hu)).mpr ⟨hvu, huv⟩

variable (hg : g.Closed) (hnodup : g.nodes.Nodup)

include hg hnodup

/-- The members of a component of a node are the nodes that are connected to it. -/
theorem mem_filter_connected (hv : v ∈ g.nodes) :
    x ∈ g.postorder.filter (g.connected v) ↔ g.Reaches v x ∧ g.Reaches x v := by
  rw [List.mem_filter, (perm_postorder hg hnodup).mem_iff]
  constructor
  · exact fun h => (connected_iff hg hv h.1).mp h.2
  · intro h
    have hx := hg.mem_nodes hv h.1
    exact ⟨hx, (connected_iff hg hv hx).mpr h⟩

/-- The components are those of the nodes. -/
theorem mem_components_iff : C ∈ g.components ↔ ∃ v ∈ g.nodes, C = g.postorder.filter (g.connected v) := by
  constructor
  · intro h
    obtain ⟨v, hv, hC⟩ := exists_of_mem_classesAtLast h
    exact ⟨v, (perm_postorder hg hnodup).mem_iff.mp hv, hC⟩
  · rintro ⟨v, hv, rfl⟩
    obtain ⟨D, hD, hvD⟩ := List.mem_flatten.mp (mem_flatten_components hg hv)
    obtain ⟨w, hw, rfl⟩ := exists_of_mem_classesAtLast hD
    have hw' := (perm_postorder hg hnodup).mem_iff.mp hw
    have hwv := (List.mem_filter.mp hvD).2
    have hsame : g.connected v = g.connected w := by
      funext x
      rw [Bool.eq_iff_iff]
      exact ⟨connected_trans hg hw' hwv, connected_trans hg hv (connected_symm hwv)⟩
    rwa [hsame]

/-- No component reaches a later one. -/
theorem pairwise_components : g.components.Pairwise fun C D => ∀ c ∈ C, ∀ d ∈ D, ¬ g.Reaches c d := by
  have hperm := perm_postorder hg hnodup
  apply pairwise_classesAtLast
  intro before v after hpostorder hlast w hw c hc d hd hcd
  have hafter : ∀ u ∈ v :: after, u ∈ g.nodes := fun u hu => hperm.mem_iff.mp (by rw [hpostorder]; simp_all)
  have hv := hafter v List.mem_cons_self
  have hvc := ((mem_filter_connected hg hnodup hv).mp hc).1
  have hdw := ((mem_filter_connected hg hnodup (hafter w (List.mem_cons_of_mem v hw))).mp hd).2
  have hapart := List.nodup_append.mp (hpostorder ▸ hperm.nodup_iff.mpr hnodup)
  rcases mem_before_or_connected hg hpostorder ((hvc.trans hcd).trans hdw) with hbefore | rfl | ⟨u, hu, hvu⟩
  · exact hapart.2.2 w hbefore w (List.mem_cons_of_mem v hw) rfl
  · exact (List.nodup_cons.mp hapart.2.1).1 hw
  · exact absurd hvu (by simp [hlast u hu])

/-- Every node is in one component, once. -/
theorem perm_flatten_components : g.components.flatten.Perm g.nodes := by
  have hperm := perm_postorder hg hnodup
  refine (List.perm_ext_iff_of_nodup (List.nodup_flatten.mpr ⟨fun C hC => ?_, ?_⟩) hnodup).mpr fun x =>
    ⟨fun hx => ?_, ?_⟩
  · obtain ⟨v, -, rfl⟩ := exists_of_mem_classesAtLast hC
    exact (hperm.nodup_iff.mpr hnodup).filter _
  · -- A node in two components would lead from the first to the second.
    refine (pairwise_components hg hnodup).imp fun happart => ?_
    exact List.disjoint_left.mpr fun x hx hx' => happart x hx x hx' .refl
  · obtain ⟨C, hC, hxC⟩ := List.mem_flatten.mp hx
    obtain ⟨v, -, rfl⟩ := exists_of_mem_classesAtLast hC
    exact hperm.mem_iff.mp (List.mem_filter.mp hxC).1
  · exact mem_flatten_components hg

end Components

end OntologyCompiler.Digraph
