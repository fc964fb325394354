import OntologyCompiler.Proofs.Order

/-!
# Merging by keys

A walk that collects items keeps those whose key it has not met before, one by one or level by level. What comes first
is kept as it would be alone, and what follows loses the keys that have come before. A stable sort does not change the
order of items that are equal in its order.
-/

namespace OntologyCompiler

section Merging

variable {α κ : Type} [DecidableEq κ] {key : α → κ}

/-- What is kept was there. -/
theorem mem_of_mem_keepFirst {l : List α} {a : α} (h : a ∈ keepFirst key l) : a ∈ l := by
  induction l with
  | nil => cases h
  | cons b l ih =>
    rcases List.mem_cons.mp h with rfl | h
    · exact List.mem_cons_self
    · exact List.mem_cons_of_mem _ (ih (List.mem_filter.mp h).1)

/-- Of two lists the first is kept as it would be alone, the second where the keys are new. -/
theorem keepFirst_append (l m : List α) :
    keepFirst key (l ++ m) = keepFirst key l ++ (keepFirst key m).filter fun a => key a ∉ l.map key := by
  induction l with
  | nil => simp [keepFirst]
  | cons a l ih =>
    rw [List.cons_append, keepFirst, ih, List.filter_append, List.filter_filter, keepFirst, List.cons_append]
    simp only [List.map_cons, List.mem_cons, not_or, Bool.decide_and]

/-- Items with different keys are all kept. -/
theorem keepFirst_eq_self {l : List α} (h : (l.map key).Nodup) : keepFirst key l = l := by
  induction l with
  | nil => rfl
  | cons a l ih =>
    obtain ⟨hnew, hrest⟩ := List.nodup_cons.mp h
    rw [keepFirst, ih hrest, List.filter_eq_self.mpr]
    intro b hb
    apply decide_eq_true
    exact fun heq => hnew (heq ▸ List.mem_map_of_mem hb)

/-- What is kept has different keys. -/
theorem nodup_map_keepFirst (l : List α) : ((keepFirst key l).map key).Nodup := by
  induction l with
  | nil => exact .nil
  | cons a l ih =>
    rw [keepFirst, List.map_cons, List.nodup_cons]
    refine ⟨fun hmem => ?_, ih.sublist (List.filter_sublist.map key)⟩
    obtain ⟨b, hb, heq⟩ := List.mem_map.mp hmem
    exact of_decide_eq_true (List.mem_filter.mp hb).2 heq

/-- No key is lost. -/
theorem exists_mem_keepFirst_iff {l : List α} {k : κ} : (∃ a ∈ keepFirst key l, key a = k) ↔ ∃ a ∈ l, key a = k := by
  refine ⟨fun ⟨a, ha, hk⟩ => ⟨a, mem_of_mem_keepFirst ha, hk⟩, ?_⟩
  induction l with
  | nil => exact id
  | cons b l ih =>
    by_cases hb : key b = k
    · exact fun _ => ⟨b, List.mem_cons_self, hb⟩
    · rintro ⟨a, ha, hk⟩
      have hmem : a ∈ l := (List.mem_cons.mp ha).resolve_left fun heq => hb (heq ▸ hk)
      obtain ⟨c, hc, hck⟩ := ih ⟨a, hmem, hk⟩
      exact ⟨c, List.mem_cons_of_mem b (List.mem_filter.mpr ⟨hc, by simpa [hck] using Ne.symm hb⟩), hck⟩

/-- Keys seen before are left out of all levels. -/
theorem mergeLevels_eq_filter (seen : List κ) (levels : List (List α)) :
    mergeLevels key seen levels = (mergeLevels key [] levels).filter fun a => key a ∉ seen := by
  induction levels generalizing seen with
  | nil => rfl
  | cons level rest ih =>
    rw [mergeLevels, mergeLevels, ih (seen ++ _), ih ([] ++ _), List.filter_append, List.filter_filter]
    simp

/-- Levels after the first one are merged on their own, and give what has a key that the first one has not. -/
theorem mergeLevels_cons (level : List α) (rest : List (List α)) :
    mergeLevels key [] (level :: rest) =
      level ++ (mergeLevels key [] rest).filter fun a => key a ∉ level.map key := by
  rw [mergeLevels, mergeLevels_eq_filter]
  simp

/-- What is merged was on one of the levels. -/
theorem exists_level_of_mem_mergeLevels {seen : List κ} {levels : List (List α)} {a : α}
    (h : a ∈ mergeLevels key seen levels) : ∃ level ∈ levels, a ∈ level := by
  induction levels generalizing seen with
  | nil => cases h
  | cons level levels ih =>
    rcases List.mem_append.mp h with hfirst | hrest
    · exact ⟨level, List.mem_cons_self, (List.mem_filter.mp hfirst).1⟩
    · obtain ⟨level', hlevel, ha⟩ := ih hrest
      exact ⟨level', List.mem_cons_of_mem _ hlevel, ha⟩

/-- Under a key two lists have what the first one has, or else what the second one has, where the second one has lost
the keys of the first. -/
theorem filter_append_fresh (l m : List α) (k : κ) :
    (l ++ m.filter fun a => key a ∉ l.map key).filter (fun a => key a = k) =
      if k ∈ l.map key then l.filter fun a => key a = k else m.filter fun a => key a = k := by
  rw [List.filter_append, List.filter_filter]
  split
  next hl =>
    have hnone : m.filter (fun a => decide (key a = k) && decide (key a ∉ l.map key)) = [] := by
      apply List.filter_eq_nil_iff.mpr
      intro a _ ha
      obtain ⟨rfl, hnot⟩ : key a = k ∧ key a ∉ l.map key := by simpa using ha
      exact hnot hl
    rw [hnone, List.append_nil]
  next hl =>
    have hnone : l.filter (fun a => key a = k) = [] := by
      apply List.filter_eq_nil_iff.mpr
      intro a ha heq
      exact hl (of_decide_eq_true heq ▸ List.mem_map_of_mem ha)
    rw [hnone, List.nil_append]
    apply List.filter_congr
    intro a _
    by_cases ha : key a = k
    · subst ha
      simpa using hl
    · simp [ha]

/-- Under a key the first item is kept. -/
theorem filter_keepFirst (l : List α) (k : κ) :
    (keepFirst key l).filter (fun a => key a = k) = (l.filter fun a => key a = k).take 1 := by
  induction l with
  | nil => rfl
  | cons a l ih =>
    rw [← List.singleton_append, keepFirst_append, show keepFirst key [a] = [a] from rfl, filter_append_fresh, ih]
    by_cases ha : key a = k
    · simp [ha]
    · simp [ha, Ne.symm ha]

end Merging

/-- Items that are equal in the order of a stable sort keep their order. -/
theorem filter_mergeSort {α : Type} (cmp : α → α → Ordering) [Std.TransCmp cmp] {p : α → Bool} (l : List α)
    (hp : ∀ a b, p a = true → p b = true → cmp a b = .eq) :
    (l.mergeSort fun a b => (cmp a b).isLE).filter p = l.filter p := by
  have hequal : (l.filter p).Pairwise fun a b => (cmp a b).isLE = true := by
    apply List.pairwise_of_forall_mem_list
    intro a ha b hb
    rw [hp a b (List.mem_filter.mp ha).2 (List.mem_filter.mp hb).2]
    rfl
  have hstable : (l.filter p).Sublist (l.mergeSort fun a b => (cmp a b).isLE) :=
    List.sublist_mergeSort (fun _ _ _ => Std.TransCmp.isLE_trans) (fun a b => total_isLE cmp a b) hequal
      List.filter_sublist
  have hsublist := hstable.filter p
  rw [List.filter_filter, funext (fun a => Bool.and_self (p a))] at hsublist
  exact (hsublist.eq_of_length ((List.mergeSort_perm l _).filter p).length_eq.symm).symm

/-- Sorting by a key does not change what has one key. -/
theorem filter_sortOn {α κ : Type} [Ord κ] [Std.TransOrd κ] {key : α → κ} {p : α → Bool} {l : List α}
    (hp : ∀ a b, p a = true → p b = true → key a = key b) : (sortOn key l).filter p = l.filter p := by
  apply filter_mergeSort (compareOn key)
  intro a b ha hb
  rw [compareOn, hp a b ha hb, Std.compare_self]

end OntologyCompiler
