import Mathlib.Data.ENat.Lattice
import OntologyCompiler.Proofs.Packages.Search

/-!
# Ties between components

A search over all nodes finishes what the first nodes reach before it goes on, so if some first nodes reach a
component and none of them reaches another one, the components come in this order. If neither is reached sooner and
neither reaches the other, the order of successors decides. A search that prefers the successors closest to a
component goes straight to it from the first node that reaches it, and finishes it before anything else that it
does not reach.
-/

namespace OntologyCompiler.Digraph

variable {α : Type} {g g' : Digraph α} {s : Search α} {u v w x y : α} {n : ℕ} {l pre C D : List α}

/-- Some first nodes reach a node, and none of them reaches the other one. -/
def Sooner (g : Digraph α) (x y : α) : Prop :=
  ∃ first, first <+: g.nodes ∧ (∃ v ∈ first, g.Reaches v x) ∧ ∀ v ∈ first, ¬ g.Reaches v y

/-- A node gets in so many steps to the component of another one. -/
def Within (g : Digraph α) (x : α) : ℕ → α → Prop
  | 0, v => g.Reaches x v ∧ g.Reaches v x
  | n + 1, v => ∃ w, g.Edge v w ∧ g.Within x n w

/-- The least number of steps from a node to the component of another one. -/
noncomputable def distance (g : Digraph α) (x v : α) : ℕ∞ := sInf {d | ∃ n : ℕ, g.Within x n v ∧ d = n}

/-- Successors come in ascending order of their distance to a component. -/
def ClosestFirst (g : Digraph α) (x : α) : Prop :=
  ∀ v, (g.successors v).Pairwise fun a b => g.distance x a ≤ g.distance x b

section Congruence

/-- Reaching depends on the edges only. -/
theorem reaches_eq (hedge : g'.Edge = g.Edge) : g'.Reaches = g.Reaches := by
  rw [Reaches, Reaches, hedge]

/-- The distance depends on the edges only. -/
theorem distance_eq (hedge : g'.Edge = g.Edge) : g'.distance = g.distance := by
  have hwithin (x : α) (n : ℕ) : g'.Within x n = g.Within x n := by
    induction n with
    | zero =>
      funext v
      rw [Within, Within, reaches_eq hedge]
    | succ n ih =>
      funext v
      rw [Within, Within, hedge, ih]
  funext x v
  simp only [distance, hwithin]

/-- What is reached sooner depends on the nodes and edges only. -/
theorem sooner_eq (hnodes : g'.nodes = g.nodes) (hedge : g'.Edge = g.Edge) : g'.Sooner = g.Sooner := by
  funext x y
  simp only [Sooner, reaches_eq hedge, hnodes]

end Congruence

section Distance

/-- A node that gets to a component reaches it. -/
theorem Within.reaches (h : g.Within x n v) : g.Reaches v x := by
  induction n generalizing v with
  | zero => exact h.2
  | succ n ih =>
    obtain ⟨w, hedge, hw⟩ := h
    exact .head hedge (ih hw)

/-- A node that reaches a component gets to it. -/
theorem exists_within (h : g.Reaches v x) : ∃ n, g.Within x n v := by
  induction h using Relation.ReflTransGen.head_induction_on with
  | refl => exact ⟨0, .refl, .refl⟩
  | head hedge _ ih =>
    obtain ⟨n, hn⟩ := ih
    exact ⟨n + 1, _, hedge, hn⟩

/-- The distance is not more than the steps that suffice. -/
theorem Within.distance_le (h : g.Within x n v) : g.distance x v ≤ n := sInf_le ⟨n, h, rfl⟩

/-- The distance of a node that reaches a component is a number of steps. -/
theorem exists_within_distance (h : g.Reaches v x) : ∃ n, g.Within x n v ∧ g.distance x v = n := by
  obtain ⟨n, hn⟩ := exists_within h
  change g.distance x v ∈ {d : ℕ∞ | ∃ n : ℕ, g.Within x n v ∧ d = n}
  exact csInf_mem ⟨n, n, hn, rfl⟩

/-- The members of a component are not away from it. -/
theorem distance_eq_zero (h : g.Reaches x v) (h' : g.Reaches v x) : g.distance x v = 0 :=
  nonpos_iff_eq_zero.mp (Within.distance_le (n := 0) ⟨h, h'⟩)

/-- From a node outside of a component that it reaches there is a step closer to it. -/
theorem exists_edge_distance_lt (h : g.Reaches v x) (hout : ¬ g.Reaches x v) :
    ∃ w, g.Edge v w ∧ g.distance x w < g.distance x v := by
  obtain ⟨n, hn, hdistance⟩ := exists_within_distance h
  cases n with
  | zero => exact absurd hn.1 hout
  | succ n =>
    obtain ⟨w, hedge, hw⟩ := hn
    refine ⟨w, hedge, hw.distance_le.trans_lt ?_⟩
    rw [hdistance]
    exact_mod_cast Nat.lt_succ_self n

/-- If the closest successors come first, the first one is a step closer to a component that is reached. -/
theorem ClosestFirst.exists_cons (hclosest : g.ClosestFirst x) (h : g.Reaches v x) (hout : ¬ g.Reaches x v) :
    ∃ next rest, g.successors v = next :: rest ∧ g.distance x next < g.distance x v := by
  obtain ⟨w, hedge, hlt⟩ := exists_edge_distance_lt h hout
  obtain ⟨next, rest, hsuccessors⟩ := List.exists_cons_of_ne_nil (List.ne_nil_of_mem hedge)
  refine ⟨next, rest, hsuccessors, ?_⟩
  have hsorted := hclosest v
  rw [hsuccessors] at hsorted
  rw [Edge, hsuccessors] at hedge
  rcases List.mem_cons.mp hedge with rfl | hmem
  · exact hlt
  · exact ((List.pairwise_cons.mp hsorted).1 w hmem).trans_lt hlt

/-- A node that is closer than another one reaches the component. -/
theorem reaches_of_distance_lt (h : g.distance x w < g.distance x v) : g.Reaches w x := by
  by_contra hnot
  have hempty : {d : ℕ∞ | ∃ n : ℕ, g.Within x n w ∧ d = n} = ∅ :=
    Set.eq_empty_of_forall_notMem fun d ⟨n, hn, _⟩ => hnot hn.reaches
  rw [distance, hempty, sInf_empty] at h
  exact not_top_lt h

end Distance

variable [DecidableEq α]

section Prefixes

/-- Visits start only what can be reached. -/
theorem reaches_of_mem_started_foldl (h : x ∈ (l.foldl (g.visit n) s).started) :
    x ∈ s.started ∨ ∃ v ∈ l, g.Reaches v x := by
  induction l generalizing s with
  | nil => exact .inl h
  | cons v l ih =>
    rcases ih h with h | ⟨w, hw, hwx⟩
    · exact (reaches_of_mem_started_visit h).imp_right fun hvx => ⟨v, List.mem_cons_self, hvx⟩
    · exact .inr ⟨w, List.mem_cons_of_mem v hw, hwx⟩

/-- A search over nodes finishes what they reach. -/
theorem mem_finished_searchOver_iff (hg : g.Closed) (hl : ∀ v ∈ l, v ∈ g.nodes) :
    x ∈ (g.searchOver l).finished ↔ ∃ v ∈ l, g.Reaches v x := by
  obtain ⟨hsound, hstarted⟩ := sound_searchOver hg hl
  constructor
  · intro h
    exact (reaches_of_mem_started_foldl (hsound.started x h)).resolve_left List.not_mem_nil
  · rintro ⟨v, hv, hpath⟩
    induction hpath with
    | refl => exact mem_finished_searchOver (hstarted v hv)
    | tail _ hedge ih => exact mem_finished_searchOver (hsound.closed _ ih _ hedge)

/-- What is finished first stays first. -/
theorem prefix_finished_searchOver (hl : l <+: g.nodes) : (g.searchOver l).finished <+: g.postorder := by
  obtain ⟨rest, hrest⟩ := hl
  have hall : g.postorder = (rest.foldl (g.visit (g.nodes.length + 1)) (g.searchOver l)).finished := by
    rw [searchOver, ← List.foldl_append, hrest, postorder]
  rw [hall]
  exact (Search.Grows.foldl grows_visit rest _).finished

end Prefixes

section Components

variable (hg : g.Closed) (hnodup : g.nodes.Nodup)

include hg hnodup

/-- The members of a component reach each other. -/
theorem reaches_of_mem_component (hC : C ∈ g.components) (hv : v ∈ C) (hw : w ∈ C) : g.Reaches v w := by
  obtain ⟨u, hu, rfl⟩ := (mem_components_iff hg hnodup).mp hC
  exact ((mem_filter_connected hg hnodup hu).mp hv).2.trans ((mem_filter_connected hg hnodup hu).mp hw).1

/-- If at some time a component is finished, so are the components before it. -/
theorem pairwise_subset_components (hpre : pre <+: g.postorder) :
    g.components.Pairwise fun C D => D ⊆ pre → C ⊆ pre := by
  have hperm := perm_postorder hg hnodup
  apply pairwise_classesAtLast
  intro before v after hpostorder hlast w hw hD c hc
  have hafter : ∀ u ∈ v :: after, u ∈ g.nodes := fun u hu => hperm.mem_iff.mp (by rw [hpostorder]; simp_all)
  have hwnode := hafter w (List.mem_cons_of_mem v hw)
  have hwpre : w ∈ pre := hD ((mem_filter_connected hg hnodup hwnode).mpr ⟨.refl, .refl⟩)
  -- The prefix gets beyond the last member of the first component.
  have hbefore : before ++ [v] <+: pre := by
    have hpart : before ++ [v] <+: g.postorder := ⟨after, by simp [hpostorder]⟩
    refine (List.prefix_or_prefix_of_prefix hpart hpre).resolve_right fun hshort => ?_
    have hnodup' := List.nodup_append.mp (show (before ++ [v] ++ after).Nodup by
      simpa [← hpostorder] using hperm.nodup_iff.mpr hnodup)
    exact hnodup'.2.2 w (hshort.subset hwpre) w hw rfl
  obtain ⟨hcmem, hvc⟩ := List.mem_filter.mp hc
  rw [hpostorder] at hcmem
  rcases List.mem_append.mp hcmem with hcmem | hcmem
  · exact hbefore.subset (List.mem_append_left _ hcmem)
  · rcases List.mem_cons.mp hcmem with rfl | hcmem
    · exact hbefore.subset (List.mem_append_right _ (List.mem_singleton_self c))
    · exact absurd hvc (by simp [hlast c hcmem])

/-- No component is reached sooner than an earlier one. -/
theorem pairwise_components_not_sooner :
    g.components.Pairwise fun C D => ∀ c ∈ C, ∀ d ∈ D, ¬ g.Sooner d c := by
  rw [List.pairwise_iff_forall_sublist]
  rintro C D hCD c hc d hd ⟨first, hfirst, ⟨v, hv, hvd⟩, hnone⟩
  have hnodes : ∀ v ∈ first, v ∈ g.nodes := fun v hv => hfirst.subset hv
  have hpart := prefix_finished_searchOver hfirst
  have hD : D ∈ g.components := hCD.subset (by simp)
  have hsub : D ⊆ (g.searchOver first).finished := by
    intro u hu
    exact (mem_finished_searchOver_iff hg hnodes).mpr ⟨v, hv, hvd.trans (reaches_of_mem_component hg hnodup hD hd hu)⟩
  have hC := List.pairwise_iff_forall_sublist.mp (pairwise_subset_components hg hnodup hpart) hCD hsub hc
  obtain ⟨u, hu, huc⟩ := (mem_finished_searchOver_iff hg hnodes).mp hC
  exact hnone u hu huc

end Components

section Descent

/-- A visit to a member of a component that is closer than all started nodes finishes what the component reaches. -/
theorem mem_finished_visit (hg : g.Closed) (h : s.Sound g) (hv : v ∈ g.nodes)
    (hfuel : g.nodes.length < n + s.started.length) (hopen : ∀ u, s.Open u → g.Reaches u v) (hxv : g.Reaches x v)
    (hvx : g.Reaches v x) (hfar : ∀ u ∈ s.started, g.Reaches u x → g.distance x v < g.distance x u)
    (hu : g.Reaches x u) : u ∈ (g.visit n s v).finished := by
  obtain ⟨hsound, hstarted⟩ := h.visit hg hv hfuel hopen
  have hnone {w : α} (hw : (g.visit n s v).Open w) : ¬ g.Reaches x w := by
    intro hxw
    have hwopen : s.Open w := open_of_open_foldl (l := [v]) hw
    have hwx := (hopen w hwopen).trans hvx
    have hlt := hfar w hwopen.1 hwx
    rw [distance_eq_zero hxw hwx] at hlt
    exact not_lt_zero hlt
  have hfinished : v ∈ (g.visit n s v).finished := by
    by_contra hnot
    exact hnone ⟨hstarted, hnot⟩ hxv
  rcases hsound.mem_or_open (hsound.closed v hfinished) (hvx.trans hu) with hmem | rfl | ⟨w, hw, -, hvw⟩
  · exact hmem
  · exact hfinished
  · exact absurd (hxv.trans hvw) (hnone hw)

variable (hg : g.Closed) (hclosest : g.ClosestFirst x) (hxy : ¬ g.Reaches x y) (hyx : ¬ g.Reaches y x)

include hg hclosest hxy hyx

/-- A search that visits the closest successors first finishes a component before anything that it does not reach
and that does not reach it. -/
theorem exists_prefix_visit (h : s.Sound g) (hv : v ∈ g.nodes) (hfuel : g.nodes.length < n + s.started.length)
    (hopen : ∀ u, s.Open u → g.Reaches u v) (hvx : g.Reaches v x)
    (hfar : ∀ u ∈ s.started, g.Reaches u x → g.distance x v < g.distance x u) (hy : y ∉ s.started) :
    ∃ pre, pre <+: (g.visit n s v).finished ∧ (∀ u, g.Reaches x u → u ∈ pre) ∧ y ∉ pre := by
  induction n generalizing s v with
  | zero =>
    have hle := h.length_le
    omega
  | succ n ih =>
    by_cases hxv : g.Reaches x v
    · refine ⟨_, List.prefix_rfl, fun u => mem_finished_visit hg h hv hfuel hopen hxv hvx hfar, fun hfinished => ?_⟩
      rcases reaches_of_mem_started_visit ((h.visit hg hv hfuel hopen).1.started y hfinished) with hmem | hvy
      · exact hy hmem
      · exact hxy (hxv.trans hvy)
    · -- The first successor is closer than the node and hence than everything that is started, so it is visited now.
      obtain ⟨next, rest, hsuccessors, hcloser⟩ := hclosest.exists_cons hvx hxv
      have hnew : v ∉ s.started := fun hmem => lt_irrefl _ (hfar v hmem hvx)
      have hnext : g.Edge v next := by simp [Edge, hsuccessors]
      have hmarkedOpen : ∀ u, Search.Open { s with started := v :: s.started } u → g.Reaches u next := by
        intro u hu
        rcases List.mem_cons.mp hu.1 with rfl | hmem
        · exact .single hnext
        · exact (hopen u ⟨hmem, hu.2⟩).tail hnext
      have hmarkedFar : ∀ u ∈ v :: s.started, g.Reaches u x → g.distance x next < g.distance x u := by
        intro u hu hux
        rcases List.mem_cons.mp hu with rfl | hmem
        · exact hcloser
        · exact hcloser.trans (hfar u hmem hux)
      have hmarkedNot : y ∉ v :: s.started := by
        rintro (_ | ⟨_, hmem⟩)
        · exact hyx hvx
        · exact hy hmem
      obtain ⟨pre, hpre, hcomponent, hnot⟩ := ih (h.mark hv hnew) (hg v hv next hnext)
        (by simp only [List.length_cons]; omega) hmarkedOpen (reaches_of_distance_lt hcloser) hmarkedFar hmarkedNot
      refine ⟨pre, hpre.trans ?_, hcomponent, hnot⟩
      rw [visit, if_neg hnew, hsuccessors]
      exact (Search.Grows.foldl grows_visit rest _).finished.trans (List.prefix_append _ _)

/-- If the closest successors come first, the component of a node comes before that of a node that is not reached
sooner, where neither reaches the other. -/
theorem pairwise_components_of_closestFirst (hnodup : g.nodes.Nodup) (hx : x ∈ g.nodes) (hsooner : ¬ g.Sooner y x) :
    g.components.Pairwise fun C D => ¬ (y ∈ C ∧ x ∈ D) := by
  classical
  -- The search descends from the first node that reaches the component.
  have hfound : (g.nodes.find? fun v => decide (g.Reaches v x)).isSome :=
    List.find?_isSome.mpr ⟨x, hx, decide_eq_true .refl⟩
  obtain ⟨v, hv⟩ := Option.isSome_iff_exists.mp hfound
  obtain ⟨hvx, first, rest, hnodes, hnone⟩ := List.find?_eq_some_iff_append.mp hv
  simp only [decide_eq_true_eq, Bool.not_eq_true', decide_eq_false_iff_not] at hvx hnone
  have hfirst : first <+: g.nodes := ⟨v :: rest, hnodes.symm⟩
  have hpart : first ++ [v] <+: g.nodes := ⟨rest, by simp [hnodes]⟩
  obtain ⟨hsound, -⟩ := sound_searchOver hg fun u hu => hfirst.subset hu
  have hreached {u : α} (hu : u ∈ (g.searchOver first).started) : ∃ w ∈ first, g.Reaches w u :=
    (reaches_of_mem_started_foldl hu).resolve_left List.not_mem_nil
  have hfar : ∀ u ∈ (g.searchOver first).started, g.Reaches u x → g.distance x v < g.distance x u := by
    intro u hu hux
    obtain ⟨w, hw, hwu⟩ := hreached hu
    exact absurd (hwu.trans hux) (hnone w hw)
  have hy : y ∉ (g.searchOver first).started := fun hy => hsooner ⟨first, hfirst, hreached hy, hnone⟩
  obtain ⟨pre, hpre, hcomponent, hnot⟩ := exists_prefix_visit hg hclosest hxy hyx hsound
    (n := g.nodes.length + 1) (hpart.subset (by simp)) (by omega)
    (fun u hu => absurd (mem_finished_searchOver hu.1) hu.2) hvx hfar hy
  have hpostorder : pre <+: g.postorder := by
    refine hpre.trans ?_
    have hvisit : g.visit (g.nodes.length + 1) (g.searchOver first) v = g.searchOver (first ++ [v]) := by
      rw [searchOver, searchOver, List.foldl_append]
      rfl
    rw [hvisit]
    exact prefix_finished_searchOver hpart
  rw [List.pairwise_iff_forall_sublist]
  rintro C D hCD ⟨hyC, hxD⟩
  have hD : D ⊆ pre := fun u hu =>
    hcomponent u (reaches_of_mem_component hg hnodup (hCD.subset (by simp)) hxD hu)
  exact hnot (List.pairwise_iff_forall_sublist.mp (pairwise_subset_components hg hnodup hpostorder) hCD hD hyC)

end Descent

section Listed

/-- A component in the order of the nodes. -/
def listed (g : Digraph α) (C : List α) : List α := g.nodes.filter (· ∈ C)

/-- The nodes of a component are listed. -/
@[simp] theorem mem_listed : v ∈ g.listed C ↔ v ∈ g.nodes ∧ v ∈ C := by
  rw [listed, List.mem_filter, decide_eq_true_eq]

/-- A node is connected to itself. -/
theorem mem_filter_connected_self (hg : g.Closed) (hv : v ∈ g.nodes) : v ∈ g.nodes.filter (g.connected v) :=
  List.mem_filter.mpr ⟨hv, (connected_iff hg hv hv).mpr ⟨.refl, .refl⟩⟩

section Members

variable (hg : g.Closed) (hnodup : g.nodes.Nodup)

include hg hnodup

/-- The component of a node is listed with the nodes that are connected to it. -/
theorem mem_map_listed_iff : C ∈ g.components.map g.listed ↔ ∃ v ∈ g.nodes, C = g.nodes.filter (g.connected v) := by
  have hlisted (v : α) : g.listed (g.postorder.filter (g.connected v)) = g.nodes.filter (g.connected v) := by
    apply List.filter_congr
    intro u hu
    rw [Bool.eq_iff_iff, decide_eq_true_eq, List.mem_filter, and_iff_right (mem_postorder hu)]
  rw [List.mem_map]
  constructor
  · rintro ⟨C, hC, rfl⟩
    obtain ⟨v, hv, rfl⟩ := (mem_components_iff hg hnodup).mp hC
    exact ⟨v, hv, hlisted v⟩
  · rintro ⟨v, hv, rfl⟩
    exact ⟨_, (mem_components_iff hg hnodup).mpr ⟨v, hv, rfl⟩, hlisted v⟩

/-- A listed component has the members of the component. -/
theorem perm_listed (hC : C ∈ g.components) : (g.listed C).Perm C := by
  obtain ⟨v, hv, rfl⟩ := (mem_components_iff hg hnodup).mp hC
  have hperm := perm_postorder hg hnodup
  refine (List.perm_ext_iff_of_nodup (hnodup.filter _) ((hperm.nodup_iff.mpr hnodup).filter _)).mpr fun x => ?_
  refine mem_listed.trans (and_iff_right_of_imp ?_)
  exact fun hx => hperm.mem_iff.mp (List.mem_of_mem_filter hx)

/-- Of listed components the earlier does not reach the later, and the later is not reached sooner. -/
theorem pairwise_map_listed : (g.components.map g.listed).Pairwise fun C D =>
    ∀ c ∈ C, ∀ d ∈ D, ¬ g.Reaches c d ∧ ¬ g.Sooner d c := by
  have hpairs := (pairwise_components hg hnodup).and (pairwise_components_not_sooner hg hnodup)
  refine List.pairwise_map.mpr (hpairs.imp ?_)
  rintro C D ⟨hreaches, hsooner⟩ c hc d hd
  have hc' := (mem_listed.mp hc).2
  have hd' := (mem_listed.mp hd).2
  exact ⟨hreaches c hc' d hd', hsooner c hc' d hd'⟩

/-- No component is listed twice. -/
theorem nodup_map_listed : (g.components.map g.listed).Nodup := by
  apply (pairwise_map_listed hg hnodup).imp_of_mem
  rintro C D hC - happart rfl
  obtain ⟨v, hv, rfl⟩ := (mem_map_listed_iff hg hnodup).mp hC
  have hself := mem_filter_connected_self hg hv
  exact (happart v hself v hself).1 .refl

end Members

/-- If of every two nodes one reaches the other or is reached sooner, then the order of successors makes no
difference to the components but for the order of their members. -/
theorem map_components_eq {β : Type} (hg : g.Closed) (hg' : g'.Closed) (hnodup : g.nodes.Nodup)
    (hnodes : g'.nodes = g.nodes) (hedge : g'.Edge = g.Edge)
    (hapart : ∀ x ∈ g.nodes, ∀ y ∈ g.nodes, g.Reaches x y ∨ g.Reaches y x ∨ g.Sooner x y ∨ g.Sooner y x)
    {view : List α → β} (hview : ∀ C D : List α, C.Perm D → view C = view D) :
    g'.components.map view = g.components.map view := by
  have hnodup' : g'.nodes.Nodup := hnodes ▸ hnodup
  have hconnected : g'.connected = g.connected := connected_eq hnodes fun v w => by rw [hedge]
  have hperm : (g'.components.map g'.listed).Perm (g.components.map g.listed) := by
    refine (List.perm_ext_iff_of_nodup (nodup_map_listed hg' hnodup') (nodup_map_listed hg hnodup)).mpr fun C => ?_
    rw [mem_map_listed_iff hg' hnodup', mem_map_listed_iff hg hnodup, hnodes, hconnected]
  have hpairs' := pairwise_map_listed hg' hnodup'
  rw [sooner_eq hnodes hedge, reaches_eq hedge] at hpairs'
  have hlisted : g'.components.map g'.listed = g.components.map g.listed := by
    refine hperm.eq_of_pairwise (fun C D hC hD hCD hDC => ?_) hpairs' (pairwise_map_listed hg hnodup)
    obtain ⟨v, hv, rfl⟩ := (mem_map_listed_iff hg hnodup).mp (hperm.mem_iff.mp hC)
    obtain ⟨w, hw, rfl⟩ := (mem_map_listed_iff hg hnodup).mp hD
    have hv' := mem_filter_connected_self hg hv
    have hw' := mem_filter_connected_self hg hw
    have hvw := hCD v hv' w hw'
    have hwv := hDC w hw' v hv'
    rcases hapart v hv w hw with h | h | h | h
    · exact absurd h hvw.1
    · exact absurd h hwv.1
    · exact absurd h hwv.2
    · exact absurd h hvw.2
  have hseen {g : Digraph α} (hg : g.Closed) (hnodup : g.nodes.Nodup) :
      g.components.map view = (g.components.map g.listed).map view := by
    rw [List.map_map]
    exact List.map_congr_left fun C hC => (hview _ _ (perm_listed hg hnodup hC)).symm
  rw [hseen hg' hnodup', hlisted, ← hseen hg hnodup]

end Listed

end OntologyCompiler.Digraph
