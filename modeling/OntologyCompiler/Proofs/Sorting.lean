import OntologyCompiler.Proofs.Merging

/-!
# Stable sorting

A list in order is determined by what it has under each key: the least key comes first, and the items of one key stand
as they stand there. So sorting is determined by two facts, that its result is in order and that items equal in the
order keep their places among each other. A list that was in another order before is therefore sorted by two keys after.
-/

namespace OntologyCompiler

variable {α : Type} {cmp : α → α → Ordering} [Std.TransCmp cmp] {l m : List α}

/-- Lists that have the same items of every key have the same items. -/
theorem mem_iff_of_filter_eq (h : ∀ k, l.filter (fun a => cmp k a = .eq) = m.filter fun a => cmp k a = .eq) (a : α) :
    a ∈ l ↔ a ∈ m := by
  have hself : cmp a a = .eq := Std.ReflCmp.compare_self
  have hkey : a ∈ l.filter (fun b => cmp a b = .eq) ↔ a ∈ m.filter fun b => cmp a b = .eq := by rw [h]
  simpa [hself] using hkey

/-- Lists in order that have the same items of every key are equal. -/
theorem eq_of_filter_eq (cmp : α → α → Ordering) [Std.TransCmp cmp] (hl : l.Pairwise fun a b => (cmp a b).isLE = true)
    (hm : m.Pairwise fun a b => (cmp a b).isLE = true)
    (h : ∀ k, l.filter (fun a => cmp k a = .eq) = m.filter fun a => cmp k a = .eq) : l = m := by
  have hself (c : α) : cmp c c = .eq := Std.ReflCmp.compare_self
  induction l generalizing m with
  | nil => exact (List.eq_nil_iff_forall_not_mem.mpr fun a ha => nomatch (mem_iff_of_filter_eq h a).mpr ha).symm
  | cons a l ih =>
    cases m with
    | nil => exact nomatch (mem_iff_of_filter_eq h a).mp List.mem_cons_self
    | cons b m =>
      obtain ⟨hfirst, hrest⟩ := List.pairwise_cons.mp hl
      obtain ⟨hfirst', hrest'⟩ := List.pairwise_cons.mp hm
      -- Each of the first items is in the other list, so neither comes before the other: they have one key.
      have hab : (cmp a b).isLE = true := by
        rcases List.mem_cons.mp ((mem_iff_of_filter_eq h b).mpr List.mem_cons_self) with rfl | hb
        · rw [hself]; rfl
        · exact hfirst b hb
      have hba : (cmp b a).isLE = true := by
        rcases List.mem_cons.mp ((mem_iff_of_filter_eq h a).mp List.mem_cons_self) with rfl | ha
        · rw [hself]; rfl
        · exact hfirst' a ha
      have hkey : cmp a b = .eq := Std.OrientedCmp.isLE_antisymm hab hba
      have hheads := h a
      simp only [List.filter_cons, hself, hkey, decide_true, if_true] at hheads
      obtain ⟨rfl, -⟩ := List.cons.inj hheads
      refine congrArg (a :: ·) (ih hrest hrest' fun k => ?_)
      have hk := h k
      simp only [List.filter_cons] at hk
      split at hk
      · exact (List.cons.inj hk).2
      · exact hk

/-- Items of one key are equal in the order. -/
theorem filter_mergeSort_key (k : α) : (l.mergeSort fun a b => (cmp a b).isLE).filter (fun a => cmp k a = .eq) =
    l.filter fun a => cmp k a = .eq := by
  apply filter_mergeSort cmp
  intro a b ha hb
  have hka : cmp a k = .eq := Std.OrientedCmp.eq_symm (of_decide_eq_true ha)
  exact Std.TransCmp.eq_trans hka (of_decide_eq_true hb)

/-- Two lists, of which no item of the second comes before one of the first, are sorted one by one. -/
theorem mergeSort_append (h : ∀ a ∈ l, ∀ b ∈ m, (cmp a b).isLE = true) :
    (l ++ m).mergeSort (fun a b => (cmp a b).isLE) =
      l.mergeSort (fun a b => (cmp a b).isLE) ++ m.mergeSort fun a b => (cmp a b).isLE := by
  apply eq_of_filter_eq cmp (pairwise_mergeSort_key cmp (fun a => a) _)
  · refine List.pairwise_append.mpr ⟨pairwise_mergeSort_key cmp (fun a => a) l,
      pairwise_mergeSort_key cmp (fun a => a) m, fun a ha b hb => ?_⟩
    exact h a (List.mem_mergeSort.mp ha) b (List.mem_mergeSort.mp hb)
  · intro k
    rw [filter_mergeSort_key, List.filter_append, List.filter_append, filter_mergeSort_key, filter_mergeSort_key]

/-- What was in one order before is sorted by another first, and then by that one. -/
theorem pairwise_mergeSort_of_pairwise (cmp : α → α → Ordering) [Std.TransCmp cmp] {before : α → α → Prop}
    (h : l.Pairwise before) :
    (l.mergeSort fun a b => (cmp a b).isLE).Pairwise fun a b => cmp a b = .lt ∨ cmp a b = .eq ∧ before a b := by
  apply List.pairwise_iff_forall_sublist.mpr
  intro a b hab
  have hle : (cmp a b).isLE = true :=
    List.pairwise_iff_forall_sublist.mp (pairwise_mergeSort_key cmp (fun a => a) l) hab
  rcases Ordering.isLE_iff_eq_lt_or_eq_eq.mp hle with hlt | heq
  · exact Or.inl hlt
  · have hself : cmp a a = .eq := Std.ReflCmp.compare_self
    have hkey := hab.filter fun c => decide (cmp a c = .eq)
    rw [filter_mergeSort_key] at hkey
    simp only [List.filter_cons, hself, heq, decide_true, if_true, List.filter_nil] at hkey
    exact Or.inr ⟨heq, List.pairwise_iff_forall_sublist.mp h (hkey.trans List.filter_sublist)⟩

end OntologyCompiler
