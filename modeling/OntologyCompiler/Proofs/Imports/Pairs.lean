import Mathlib.Data.List.Basic
import OntologyCompiler.Ontology.Views

/-!
# One side of every pair

Pairs of a symmetric relation are visited in the order of their first members, and a pair is kept unless
it or the same pair the other way round is kept already. Which way round is kept does not depend on the
visits in between: the way round that starts at the earlier member is kept if it is visited at all, else
the other one.
-/

namespace OntologyCompiler

variable {α : Type}

/-- A symmetric relation whose members are put in order. -/
structure PairOrder (related before : α → α → Prop) : Prop where
  symm : ∀ {a b}, related a b → related b a
  asymm : ∀ {a b}, before a b → ¬ before b a
  total : ∀ {a b}, related a b → before a b ∨ before b a

/-- A related pair is seen this way round, and the other way round neither earlier nor at all. -/
structure SeenFirst (related before : α → α → Prop) (seen : List (α × α)) (a b : α) : Prop where
  related : related a b
  mem : (a, b) ∈ seen
  first : before a b ∨ (b, a) ∉ seen

section Visits

variable {related before : α → α → Prop} {seen : List (α × α)} {a b x y : α}

/-- Related members differ. -/
theorem PairOrder.ne (ho : PairOrder related before) (h : related a b) : a ≠ b := by
  intro heq
  subst heq
  have hself : before a a := (ho.total h).elim id id
  exact ho.asymm hself hself

/-- A pair is seen first one way round only. -/
theorem SeenFirst.asymm (ho : PairOrder related before) (h : SeenFirst related before seen a b) :
    ¬ SeenFirst related before seen b a := by
  intro h'
  have hab := h.first.resolve_right (not_not_intro h'.mem)
  have hba := h'.first.resolve_right (not_not_intro h.mem)
  exact ho.asymm hab hba

/-- A related pair that is seen at all is seen first one way round. -/
theorem PairOrder.seenFirst_or_seenFirst (ho : PairOrder related before) (h : related a b)
    (hseen : (a, b) ∈ seen ∨ (b, a) ∈ seen) :
    SeenFirst related before seen a b ∨ SeenFirst related before seen b a := by
  by_cases hab : (a, b) ∈ seen
  · by_cases hba : (b, a) ∈ seen
    · rcases ho.total h with hbefore | hbefore
      · exact Or.inl ⟨h, hab, Or.inl hbefore⟩
      · exact Or.inr ⟨ho.symm h, hba, Or.inl hbefore⟩
    · exact Or.inl ⟨h, hab, Or.inr hba⟩
  · exact Or.inr ⟨ho.symm h, hseen.resolve_left hab, Or.inr hab⟩

/-- One more pair is seen only as itself. -/
theorem mem_append_of_ne {p q : α × α} (h : p ≠ q) : p ∈ seen ++ [q] ↔ p ∈ seen := by
  rw [List.mem_append, List.mem_singleton]
  exact or_iff_left h

/-- A visit does not matter to other pairs. -/
theorem seenFirst_append_of_ne (hxy : (x, y) ≠ (a, b)) (hyx : (y, x) ≠ (a, b)) :
    SeenFirst related before (seen ++ [(a, b)]) x y ↔ SeenFirst related before seen x y := by
  refine ⟨fun h => ⟨h.related, ?_, ?_⟩, fun h => ⟨h.related, ?_, ?_⟩⟩
  · exact (mem_append_of_ne hxy).mp h.mem
  · exact h.first.imp_right (mt (mem_append_of_ne hyx).mpr)
  · exact (mem_append_of_ne hxy).mpr h.mem
  · exact h.first.imp_right (mt (mem_append_of_ne hyx).mp)

/-- Whether the other way round comes first is settled before a visit in order. -/
theorem seenFirst_append_swap (hne : a ≠ b) (hsorted : ∀ p ∈ seen, p.1 = a ∨ before p.1 a) :
    SeenFirst related before (seen ++ [(a, b)]) b a ↔ SeenFirst related before seen b a := by
  have hmem : (b, a) ∈ seen ++ [(a, b)] ↔ (b, a) ∈ seen :=
    mem_append_of_ne fun h => hne (Prod.mk.inj h).2
  have hearlier (h : (b, a) ∈ seen) : before b a := (hsorted _ h).resolve_left hne.symm
  refine ⟨fun h => ⟨h.related, hmem.mp h.mem, ?_⟩, fun h => ⟨h.related, hmem.mpr h.mem, ?_⟩⟩
  · exact Or.inl (hearlier (hmem.mp h.mem))
  · exact Or.inl (hearlier h.mem)

/-- After a visit in order this way round comes first unless the other one does. -/
theorem seenFirst_append_self (ho : PairOrder related before) (h : related a b)
    (hsorted : ∀ p ∈ seen, p.1 = a ∨ before p.1 a) :
    SeenFirst related before (seen ++ [(a, b)]) a b ↔ ¬ SeenFirst related before seen b a := by
  have hne := ho.ne h
  have hlast : (a, b) ∈ seen ++ [(a, b)] := List.mem_append_right _ (List.mem_singleton_self _)
  refine ⟨fun hself hswap => ?_, fun hnot => ?_⟩
  · exact hself.asymm ho ((seenFirst_append_swap hne hsorted).mpr hswap)
  · rcases ho.seenFirst_or_seenFirst h (Or.inl hlast) with hself | hswap
    · exact hself
    · exact absurd ((seenFirst_append_swap hne hsorted).mp hswap) hnot

/-- A visit of members that are not related does not matter. -/
theorem PairOrder.seenFirst_append_of_not_related (ho : PairOrder related before) (h : ¬ related a b) :
    SeenFirst related before (seen ++ [(a, b)]) x y ↔ SeenFirst related before seen x y := by
  by_cases hrelated : related x y
  · refine seenFirst_append_of_ne (fun heq => ?_) fun heq => ?_
    · obtain ⟨rfl, rfl⟩ := Prod.mk.inj heq
      exact h hrelated
    · obtain ⟨rfl, rfl⟩ := Prod.mk.inj heq
      exact h (ho.symm hrelated)
  · exact iff_of_false (fun hfirst => hrelated hfirst.related) fun hfirst => hrelated hfirst.related

/-- The kept pairs are those seen first, each once. -/
structure KeptFirst (related before : α → α → Prop) (seen kept : List (α × α)) : Prop where
  nodup : kept.Nodup
  mem_iff : ∀ a b, (a, b) ∈ kept ↔ SeenFirst related before seen a b

/-- Before the first visit nothing is kept. -/
theorem KeptFirst.nil : KeptFirst related before [] [] where
  nodup := List.nodup_nil
  mem_iff := fun _ _ => iff_of_false List.not_mem_nil fun h => nomatch h.mem

variable [DecidableEq α] [DecidableRel related] {kept rest : List (α × α)}

/-- Keeps a related pair unless it is kept already, either way round. -/
def keepPair (related : α → α → Prop) [DecidableRel related] (kept : List (α × α)) (pair : α × α) :
    List (α × α) :=
  if related pair.1 pair.2 ∧ pair ∉ kept ∧ pair.swap ∉ kept then kept ++ [pair] else kept

/-- A visit keeps its pair, if it is related and not kept the other way round, and what was kept. -/
theorem mem_keepPair : (x, y) ∈ keepPair related kept (a, b) ↔
    (x, y) ∈ kept ∨ (x, y) = (a, b) ∧ related a b ∧ (b, a) ∉ kept := by
  unfold keepPair
  split
  next hkeep =>
    rw [List.mem_append, List.mem_singleton]
    exact or_congr_right (and_iff_left ⟨hkeep.1, hkeep.2.2⟩).symm
  next hkeep =>
    refine ⟨Or.inl, fun hxy => hxy.elim id fun hnew => ?_⟩
    by_contra hnot
    exact hkeep ⟨hnew.2.1, hnew.1 ▸ hnot, hnew.2.2⟩

/-- No pair is kept twice. -/
theorem nodup_keepPair {p : α × α} (h : kept.Nodup) : (keepPair related kept p).Nodup := by
  unfold keepPair
  split
  next hkeep =>
    refine List.nodup_append.mpr ⟨h, by simp, fun q hq r hr heq => ?_⟩
    exact hkeep.2.1 (List.mem_singleton.mp hr ▸ heq ▸ hq)
  next => exact h

/-- A visit in order keeps the pairs seen first. -/
theorem KeptFirst.step (ho : PairOrder related before) (h : KeptFirst related before seen kept)
    (hsorted : ∀ p ∈ seen, p.1 = a ∨ before p.1 a) :
    KeptFirst related before (seen ++ [(a, b)]) (keepPair related kept (a, b)) where
  nodup := nodup_keepPair h.nodup
  mem_iff := by
    intro x y
    rw [mem_keepPair]
    by_cases hrelated : related a b
    · have hne := ho.ne hrelated
      by_cases hxy : (x, y) = (a, b)
      · obtain ⟨rfl, rfl⟩ := Prod.mk.inj hxy
        rw [seenFirst_append_self ho hrelated hsorted, ← h.mem_iff]
        refine ⟨fun hor => hor.elim (fun hkept hswap => ?_) fun hnew => hnew.2.2, fun hnot => ?_⟩
        · exact ((h.mem_iff _ _).mp hkept).asymm ho ((h.mem_iff _ _).mp hswap)
        · exact Or.inr ⟨rfl, hrelated, hnot⟩
      · rw [or_iff_left fun hnew => hxy hnew.1, h.mem_iff]
        by_cases hyx : (y, x) = (a, b)
        · obtain ⟨rfl, rfl⟩ := Prod.mk.inj hyx
          exact (seenFirst_append_swap hne hsorted).symm
        · exact (seenFirst_append_of_ne hxy hyx).symm
    · rw [or_iff_left fun hnew => hrelated hnew.2.1, h.mem_iff]
      exact (ho.seenFirst_append_of_not_related hrelated).symm

/-- Visits in order keep the pairs seen first. -/
theorem KeptFirst.foldl (ho : PairOrder related before) (h : KeptFirst related before seen kept)
    (hsorted : (seen ++ rest).Pairwise fun p q => p.1 = q.1 ∨ before p.1 q.1) :
    KeptFirst related before (seen ++ rest) (rest.foldl (keepPair related) kept) := by
  induction rest generalizing seen kept with
  | nil => simpa using h
  | cons p rest ih =>
    have hbefore := (List.pairwise_append.mp hsorted).2.2
    have hstep := h.step (b := p.2) ho fun q hq => hbefore q hq p List.mem_cons_self
    have hrun := ih hstep (by rwa [List.append_assoc])
    rwa [List.append_assoc] at hrun

end Visits

end OntologyCompiler
