import Mathlib.Data.List.Chain
import Mathlib.Data.List.Perm.Basic
import Mathlib.Logic.Relation
import OntologyCompiler.Resolution.References

/-!
# Cycles of a partial function

A partial function is a graph with at most one edge out of every node. The cycle from a node is the way
along edges that ends at the first return to that node; it exists exactly if the node can be reached
from itself, there is only one, and it may be started at any of its nodes. The bounded walk that the
compiler takes along bases finds it whenever the bound is not below its length.
-/

namespace OntologyCompiler

/-- The way from a node along a partial function to the first return to that node. -/
structure CycleFrom {α : Type} (f : α → Option α) (a : α) (l : List α) : Prop where
  chain : (a :: l).IsChain fun x y => f x = some y
  nodup : l.Nodup
  last : l.getLast? = some a

namespace CycleFrom

variable {α : Type} {f g : α → Option α} {a b : α} {l m : List α}

/-- A cycle has a last node. -/
theorem ne_nil (h : CycleFrom f a l) : l ≠ [] := by
  intro heq
  subst heq
  simpa using h.last

/-- A cycle comes back to its start. -/
theorem start_mem (h : CycleFrom f a l) : a ∈ l := List.mem_of_getLast? h.last

/-- Of two ways from one node one goes on where the other stops. -/
theorem prefix_or_prefix (hl : (a :: l).IsChain fun x y => f x = some y)
    (hm : (a :: m).IsChain fun x y => f x = some y) : l <+: m ∨ m <+: l := by
  induction l generalizing a m with
  | nil => exact Or.inl List.nil_prefix
  | cons x l ih =>
    cases m with
    | nil => exact Or.inr List.nil_prefix
    | cons y m =>
      obtain ⟨hx, hl⟩ := List.isChain_cons_cons.mp hl
      obtain ⟨hy, hm⟩ := List.isChain_cons_cons.mp hm
      rw [hx] at hy
      obtain rfl := Option.some.inj hy
      rcases ih hl hm with h | h
      · exact Or.inl ((List.prefix_cons_inj x).mpr h)
      · exact Or.inr ((List.prefix_cons_inj x).mpr h)

/-- A cycle does not go on behind its first return. -/
theorem eq_of_prefix (hl : CycleFrom f a l) (hm : CycleFrom f a m) (h : l <+: m) : l = m := by
  obtain ⟨r, rfl⟩ := h
  have hr : r = [] := by
    by_contra hne
    obtain ⟨-, -, hdisjoint⟩ := List.nodup_append.mp hm.nodup
    have hlast := hm.last
    rw [List.getLast?_append_of_ne_nil _ hne] at hlast
    exact hdisjoint a hl.start_mem a (List.mem_of_getLast? hlast) rfl
  rw [hr, List.append_nil]

/-- There is one cycle from a node. -/
theorem unique (hl : CycleFrom f a l) (hm : CycleFrom f a m) : l = m := by
  rcases prefix_or_prefix hl.chain hm.chain with h | h
  · exact hl.eq_of_prefix hm h
  · exact (hm.eq_of_prefix hl h).symm

/-- A cycle can be started at any of its nodes. -/
theorem rotate (h : CycleFrom f a l) (hb : b ∈ l) : ∃ m, CycleFrom f b m ∧ m.Perm l := by
  obtain ⟨s, t, rfl⟩ := List.append_of_mem hb
  obtain ⟨hs, ht⟩ := List.isChain_split.mp (List.cons_append ▸ h.chain)
  -- the way from `b` ends at `a`, where the way from `a` to `b` goes on
  obtain ⟨u, hu⟩ := List.getLast?_eq_some_iff.mp (List.getLast?_append_of_ne_nil s (List.cons_ne_nil b t) ▸ h.last)
  have hperm : (t ++ (s ++ [b])).Perm (s ++ b :: t) := by
    rw [← List.append_assoc]
    apply (List.perm_append_singleton b (t ++ s)).trans
    exact (List.perm_append_comm.cons b).trans List.perm_middle.symm
  refine ⟨t ++ (s ++ [b]), ⟨?_, hperm.nodup_iff.mpr h.nodup, ?_⟩, hperm⟩
  · rw [← List.cons_append, hu, List.append_assoc]
    exact List.isChain_split.mpr ⟨hu ▸ ht, hs⟩
  · rw [← List.append_assoc, List.getLast?_concat]

/-- Every node of a cycle has a next one. -/
theorem isSome_of_mem (h : CycleFrom f a l) (hb : b ∈ l) : ∃ c, f b = some c := by
  obtain ⟨m, hm, -⟩ := h.rotate hb
  obtain ⟨c, m', rfl⟩ := List.exists_cons_of_ne_nil hm.ne_nil
  exact ⟨c, (List.isChain_cons_cons.mp hm.chain).1⟩

/-- A cycle is one of every function that agrees on its nodes. -/
theorem congr (h : CycleFrom f a l) (hfg : ∀ x ∈ l, g x = f x) : CycleFrom g a l where
  chain := by
    apply h.chain.imp_of_mem_imp
    intro x y hx _ hxy
    rcases List.mem_cons.mp hx with rfl | hx
    · rw [hfg x h.start_mem, hxy]
    · rw [hfg x hx, hxy]
  nodup := h.nodup
  last := h.last

/-- A node that reaches itself has a cycle. -/
theorem exists_of_transGen (h : Relation.TransGen (fun x y => f x = some y) a a) : ∃ l, CycleFrom f a l := by
  -- every reached node is reached by a way without repetition
  have hway {x y : α} (h : Relation.TransGen (fun x y => f x = some y) x y) :
      ∃ l, (x :: l).IsChain (fun x y => f x = some y) ∧ l.Nodup ∧ l.getLast? = some y := by
    induction h using Relation.TransGen.head_induction_on with
    | single h => exact ⟨[_], by simpa using h, by simp, rfl⟩
    | @head x z h _ ih =>
      obtain ⟨l, hchain, hnodup, hlast⟩ := ih
      by_cases hz : z ∈ l
      · obtain ⟨s, t, rfl⟩ := List.append_of_mem hz
        refine ⟨z :: t, List.isChain_cons_cons.mpr ⟨h, ?_⟩, (List.nodup_append.mp hnodup).2.1, ?_⟩
        · exact hchain.suffix ((List.suffix_append s (z :: t)).trans (List.suffix_cons z _))
        · rw [← hlast, List.getLast?_append_of_ne_nil _ (List.cons_ne_nil z t)]
      · refine ⟨z :: l, List.isChain_cons_cons.mpr ⟨h, hchain⟩, List.nodup_cons.mpr ⟨hz, hnodup⟩, ?_⟩
        rw [List.getLast?_cons, hlast, Option.getD_some]
  obtain ⟨l, hchain, hnodup, hlast⟩ := hway h
  exact ⟨l, hchain, hnodup, hlast⟩

end CycleFrom

namespace Ontology

variable {base : ClassId → Option ClassId} {start x : ClassId} {fuel : Nat} {seen l : List ClassId}

/-- What the walk along bases returns leads to the start and meets no class twice. -/
theorem chain_of_returnPath? (h : returnPath? base start fuel seen (base x) = some l) :
    (x :: l).IsChain (fun a b => base a = some b) ∧ l.Nodup ∧ l.getLast? = some start ∧
      ∀ y ∈ l, y = start ∨ y ∉ seen := by
  induction fuel generalizing x seen l with
  | zero => cases h
  | succ fuel ih =>
    cases hnext : base x with
    | none =>
      rw [hnext] at h
      cases h
    | some next =>
      rw [hnext, returnPath?] at h
      split at h
      next heq =>
        cases h
        exact ⟨List.isChain_pair.mpr hnext, by simp, by simp [heq], by simp [heq]⟩
      next hne =>
        split at h
        next => cases h
        next hseen =>
          obtain ⟨l, hl, rfl⟩ := Option.map_eq_some_iff.mp h
          obtain ⟨hchain, hnodup, hlast, hfresh⟩ := ih hl
          refine ⟨List.isChain_cons_cons.mpr ⟨hnext, hchain⟩, List.nodup_cons.mpr ⟨fun hmem => ?_, hnodup⟩, ?_, ?_⟩
          · rcases hfresh next hmem with heq | hnot
            · exact hne heq
            · exact hnot List.mem_cons_self
          · rw [List.getLast?_cons, hlast, Option.getD_some]
          · intro y hy
            rcases List.mem_cons.mp hy with rfl | hy
            · exact Or.inr hseen
            · exact (hfresh y hy).imp_right fun hnot hmem => hnot (List.mem_cons_of_mem _ hmem)

/-- The walk along bases returns a way to the start that meets no class twice and is within the bound. -/
theorem returnPath?_of_chain (hchain : (x :: l).IsChain fun a b => base a = some b) (hnodup : l.Nodup)
    (hlast : l.getLast? = some start) (hfresh : ∀ y ∈ l, y = start ∨ y ∉ seen) (hfuel : l.length ≤ fuel) :
    returnPath? base start fuel seen (base x) = some l := by
  induction l generalizing x seen fuel with
  | nil => simp at hlast
  | cons y l ih =>
    obtain ⟨fuel, rfl⟩ : ∃ n, fuel = n + 1 := ⟨fuel - 1, by simp only [List.length_cons] at hfuel; omega⟩
    obtain ⟨hxy, hchain⟩ := List.isChain_cons_cons.mp hchain
    obtain ⟨hy, hnodup⟩ := List.nodup_cons.mp hnodup
    rw [hxy, returnPath?]
    cases l with
    | nil =>
      have hstart : y = start := by simpa using hlast
      rw [if_pos hstart]
    | cons z l =>
      rw [List.getLast?_cons_cons] at hlast
      have hne : y ≠ start := by
        intro heq
        subst heq
        exact hy (List.mem_of_getLast? hlast)
      have hseen : y ∉ seen := (hfresh y List.mem_cons_self).resolve_left hne
      have hrest : ∀ w ∈ z :: l, w = start ∨ w ∉ y :: seen := by
        intro w hw
        rcases hfresh w (List.mem_cons_of_mem y hw) with heq | hnot
        · exact Or.inl heq
        · apply Or.inr
          intro hmem
          rcases List.mem_cons.mp hmem with rfl | hmem
          · exact hy hw
          · exact hnot hmem
      have hlength : (z :: l).length ≤ fuel := by
        simp only [List.length_cons] at hfuel ⊢
        omega
      rw [if_neg hne, if_neg hseen, ih hchain hnodup hlast hrest hlength]
      rfl

/-- The bounded walk along bases returns exactly the cycle from its start, if the bound allows for it. -/
theorem returnPath?_eq_some_iff (hfuel : ∀ l, CycleFrom base start l → l.length ≤ fuel) :
    returnPath? base start fuel [start] (base start) = some l ↔ CycleFrom base start l := by
  constructor
  · intro h
    obtain ⟨hchain, hnodup, hlast, -⟩ := chain_of_returnPath? h
    exact ⟨hchain, hnodup, hlast⟩
  · intro h
    refine returnPath?_of_chain h.chain h.nodup h.last (fun y _ => ?_) (hfuel l h)
    by_cases hy : y = start
    · exact Or.inl hy
    · exact Or.inr (by simpa using hy)

/-- There are no more classes to find than there are in the list of classes. -/
theorem length_le_of_class? {o : Ontology} (hnodup : l.Nodup) (hl : ∀ d ∈ l, ∃ c, o.class? d = some c) :
    l.length ≤ o.classes.length := by
  have hindex : ∀ i ∈ l.map ClassId.index, i ∈ List.range o.classes.length := by
    intro i hi
    obtain ⟨d, hd, rfl⟩ := List.mem_map.mp hi
    obtain ⟨c, hc⟩ := hl d hd
    exact List.mem_range.mpr (List.getElem?_eq_some_iff.mp hc).1
  have hindices : (l.map ClassId.index).Nodup :=
    List.Pairwise.map _ (fun a b hne heq => hne (by cases a; cases b; simpa using heq)) hnodup
  have hlength := hindices.length_le_of_subset hindex
  rwa [List.length_map, List.length_range] at hlength

/-- A cycle of bases is no longer than the list of classes. -/
theorem length_le_of_cycleFrom {o : Ontology} (h : CycleFrom o.base? start l) : l.length ≤ o.classes.length := by
  apply length_le_of_class? h.nodup
  intro id hid
  obtain ⟨d, hd⟩ := h.isSome_of_mem hid
  obtain ⟨c, hc, -⟩ := Option.bind_eq_some_iff.mp hd
  exact ⟨c, hc⟩

/-- The walk that looks for a cycle to cut finds it. -/
theorem returnPath?_base?_eq_some_iff {o : Ontology} :
    returnPath? o.base? start (o.classes.length + 1) [start] (o.base? start) = some l ↔
      CycleFrom o.base? start l :=
  returnPath?_eq_some_iff fun _ h => Nat.le_succ_of_le (length_le_of_cycleFrom h)

end Ontology

end OntologyCompiler
