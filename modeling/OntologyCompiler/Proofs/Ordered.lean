import Mathlib.Data.List.Basic
import OntologyCompiler.Ordered.Map
import OntologyCompiler.Ordered.Set

/-!
# What determines maps and sets

An ascending list without repetition is determined by its members. So maps that have the same values at all
keys are equal, and so are sets with the same members, in whatever order they were put together.
-/

namespace OntologyCompiler

section Ascending

variable {α κ : Type} [Ord κ] [Std.TransOrd κ] {key : α → κ} {l m : List α}

/-- No key comes before itself. -/
theorem compare_self_ne_lt (k : κ) : compare k k ≠ .lt := by
  rw [Std.compare_self]
  decide

/-- A list in strictly ascending order of keys has no repetition. -/
theorem nodup_of_ascending (hl : l.Pairwise fun a b => compare (key a) (key b) = .lt) : l.Nodup := by
  apply hl.imp
  rintro a b hlt rfl
  exact compare_self_ne_lt (key a) hlt

/-- Lists in strictly ascending order of keys with the same members are equal. -/
theorem eq_of_ascending (hl : l.Pairwise fun a b => compare (key a) (key b) = .lt)
    (hm : m.Pairwise fun a b => compare (key a) (key b) = .lt) (h : ∀ a, a ∈ l ↔ a ∈ m) : l = m := by
  have hperm := (List.perm_ext_iff_of_nodup (nodup_of_ascending hl) (nodup_of_ascending hm)).mpr h
  refine hperm.eq_of_pairwise (fun a b _ _ hab hba => ?_) hl hm
  exact absurd (Std.TransCmp.lt_trans hab hba) (compare_self_ne_lt (key a))

end Ascending

namespace OrderedMap

variable {κ β : Type} [Ord κ] [Std.TransOrd κ] [Std.LawfulEqOrd κ] [DecidableEq κ] {m n : OrderedMap κ β}

/-- Maps with the same values at all keys are equal. -/
theorem ext_get? (h : ∀ k, m.get? k = n.get? k) : m = n := by
  apply ext_entries
  apply eq_of_ascending m.ascending n.ascending
  rintro ⟨k, v⟩
  rw [← get?_eq_some_iff, ← get?_eq_some_iff, h]

/-- Values of different keys can be set in any order. -/
theorem insert_comm {k k' : κ} (h : k ≠ k') (v v' : β) :
    (m.insert k v).insert k' v' = (m.insert k' v').insert k v := by
  apply ext_get?
  intro k''
  simp only [get?_insert]
  by_cases hk : k'' = k
  · rw [if_pos hk, if_neg fun heq => h (hk.symm.trans heq), if_pos hk]
  · rw [if_neg hk, if_neg hk]

end OrderedMap

namespace OrderedSet

variable {α : Type} [Ord α] [Std.TransOrd α] {s t : OrderedSet α}

/-- Sets with the same members are equal. -/
theorem ext_mem (h : ∀ a, a ∈ s ↔ a ∈ t) : s = t :=
  ext_toList (eq_of_ascending s.ascending t.ascending h)

/-- The members of a set are listed once. -/
theorem nodup_toList (s : OrderedSet α) : s.toList.Nodup :=
  @nodup_of_ascending α α _ _ id _ s.ascending

end OrderedSet

end OntologyCompiler
