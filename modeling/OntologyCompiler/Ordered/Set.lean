/-!
# Finite sets as ascending lists

A set of keys is the strictly ascending list of its members, so two sets with the same members are
the same list and every traversal visits members in key order. The order is the `compare` of the key
type, which must be a lawful linear order for insertion to keep the list ascending.
-/

namespace OntologyCompiler

/-- A finite set of keys, listed in strictly ascending order. -/
structure OrderedSet (α : Type) [Ord α] where
  toList : List α
  ascending : toList.Pairwise fun a b => compare a b = .lt

namespace OrderedSet

/-- Insertion into an ascending list; a key already present is left alone. -/
def insertInto {α : Type} [Ord α] (x : α) : List α → List α
  | [] => [x]
  | y :: ys =>
    match compare x y with
    | .lt => x :: y :: ys
    | .eq => y :: ys
    | .gt => y :: insertInto x ys

variable {α : Type} [Ord α]

/-- What an insertion leaves in the list was there before or is the new key. -/
theorem mem_of_mem_insertInto {x a : α} {l : List α} (h : a ∈ insertInto x l) : a = x ∨ a ∈ l := by
  induction l with
  | nil => simpa [insertInto] using h
  | cons y ys ih =>
    unfold insertInto at h
    split at h
    · simpa using h
    · exact Or.inr h
    · rcases List.mem_cons.mp h with rfl | h
      · simp
      · rcases ih h with rfl | h
        · simp
        · simp [h]

/-- Insertion keeps a list ascending. -/
theorem pairwise_insertInto [Std.TransOrd α] {x : α} {l : List α}
    (h : l.Pairwise fun a b => compare a b = .lt) :
    (insertInto x l).Pairwise fun a b => compare a b = .lt := by
  induction l with
  | nil => simp [insertInto]
  | cons y ys ih =>
    have hy := List.pairwise_cons.mp h
    unfold insertInto
    split
    next hlt =>
      refine List.pairwise_cons.mpr ⟨?_, h⟩
      intro a ha
      rcases List.mem_cons.mp ha with rfl | ha
      · exact hlt
      · exact Std.TransCmp.lt_trans hlt (hy.1 a ha)
    next => exact h
    next hgt =>
      refine List.pairwise_cons.mpr ⟨?_, ih hy.2⟩
      intro a ha
      rcases mem_of_mem_insertInto ha with rfl | ha
      · exact Std.OrientedCmp.lt_of_gt hgt
      · exact hy.1 a ha

/-- The set without members. -/
def empty : OrderedSet α := ⟨[], List.Pairwise.nil⟩

instance : EmptyCollection (OrderedSet α) := ⟨empty⟩

instance : Inhabited (OrderedSet α) := ⟨empty⟩

instance : Membership α (OrderedSet α) := ⟨fun s a => a ∈ s.toList⟩

instance [DecidableEq α] (a : α) (s : OrderedSet α) : Decidable (a ∈ s) :=
  inferInstanceAs (Decidable (a ∈ s.toList))

instance [DecidableEq α] : DecidableEq (OrderedSet α)
  | ⟨l, hl⟩, ⟨m, hm⟩ =>
    if h : l = m then isTrue (by subst h; rfl) else isFalse (fun e => h (congrArg toList e))

/-- The set with one more member. -/
def insert [Std.TransOrd α] (s : OrderedSet α) (x : α) : OrderedSet α :=
  ⟨insertInto x s.toList, pairwise_insertInto s.ascending⟩

/-- The members that pass a test. -/
def filter (p : α → Bool) (s : OrderedSet α) : OrderedSet α :=
  ⟨s.toList.filter p, s.ascending.sublist List.filter_sublist⟩

/-- The set without one member. -/
def erase [DecidableEq α] (s : OrderedSet α) (x : α) : OrderedSet α :=
  s.filter fun a => a ≠ x

/-- The members of the first set that are not in the second. -/
def difference [DecidableEq α] (s t : OrderedSet α) : OrderedSet α :=
  s.filter fun a => a ∉ t

/-- The set of the keys in a list. -/
def ofList [Std.TransOrd α] (l : List α) : OrderedSet α := l.foldl insert empty

/-- The members of either set. -/
def union [Std.TransOrd α] (s t : OrderedSet α) : OrderedSet α := t.toList.foldl insert s

/-- The number of members. -/
def size (s : OrderedSet α) : Nat := s.toList.length

/-- Two sets are equal when they list the same members. -/
theorem ext_toList {s t : OrderedSet α} (h : s.toList = t.toList) : s = t := by
  cases s; cases t; simp_all

/-- Membership is membership in the list of members. -/
theorem mem_iff {a : α} {s : OrderedSet α} : a ∈ s ↔ a ∈ s.toList := Iff.rfl

/-- Insertion adds exactly the new key. -/
theorem mem_insert [Std.TransOrd α] [Std.LawfulEqOrd α] {s : OrderedSet α} {x a : α} :
    a ∈ s.insert x ↔ a = x ∨ a ∈ s := by
  refine ⟨fun h => mem_of_mem_insertInto h, fun h => ?_⟩
  change a ∈ insertInto x s.toList
  have key : ∀ l : List α, (a = x ∨ a ∈ l) → a ∈ insertInto x l := by
    intro l
    induction l with
    | nil => simp [insertInto]
    | cons y ys ih =>
      intro h
      unfold insertInto
      split
      next => simpa using h
      next heq =>
        have hxy : x = y := Std.LawfulEqOrd.eq_of_compare heq
        rcases h with rfl | h
        · simp [hxy]
        · exact h
      next =>
        rcases h with h | h
        · exact List.mem_cons_of_mem _ (ih (Or.inl h))
        · rcases List.mem_cons.mp h with rfl | h
          · simp
          · exact List.mem_cons_of_mem _ (ih (Or.inr h))
  exact key s.toList h

/-- Removal drops exactly the named key. -/
theorem mem_erase [DecidableEq α] {s : OrderedSet α} {x a : α} :
    a ∈ s.erase x ↔ a ≠ x ∧ a ∈ s := by
  change a ∈ s.toList.filter _ ↔ _
  simp [List.mem_filter, mem_iff, and_comm]

/-- The set without members has none. -/
@[simp] theorem not_mem_empty {a : α} : a ∉ (∅ : OrderedSet α) := List.not_mem_nil

/-- Filtering keeps the members that pass the test. -/
theorem mem_filter {p : α → Bool} {s : OrderedSet α} {a : α} : a ∈ s.filter p ↔ a ∈ s ∧ p a = true :=
  List.mem_filter

/-- The difference holds what is in the first set only. -/
theorem mem_difference [DecidableEq α] {s t : OrderedSet α} {a : α} :
    a ∈ s.difference t ↔ a ∈ s ∧ a ∉ t := by
  simp [difference, mem_filter]

/-- Inserting the keys of a list adds exactly these. -/
theorem mem_foldl_insert [Std.TransOrd α] [Std.LawfulEqOrd α] {l : List α} {s : OrderedSet α} {a : α} :
    a ∈ l.foldl insert s ↔ a ∈ l ∨ a ∈ s := by
  induction l generalizing s with
  | nil => simp
  | cons x l ih =>
    rw [List.foldl_cons, ih, mem_insert, List.mem_cons]
    constructor
    · intro hor
      rcases hor with h | h | h
      · exact Or.inl (Or.inr h)
      · exact Or.inl (Or.inl h)
      · exact Or.inr h
    · intro hor
      rcases hor with (h | h) | h
      · exact Or.inr (Or.inl h)
      · exact Or.inl h
      · exact Or.inr (Or.inr h)

/-- The set of a list has the members of the list. -/
theorem mem_ofList [Std.TransOrd α] [Std.LawfulEqOrd α] {l : List α} {a : α} : a ∈ ofList l ↔ a ∈ l := by
  rw [ofList, mem_foldl_insert]
  exact or_iff_left List.not_mem_nil

/-- The union holds what is in either set. -/
theorem mem_union [Std.TransOrd α] [Std.LawfulEqOrd α] {s t : OrderedSet α} {a : α} :
    a ∈ s.union t ↔ a ∈ s ∨ a ∈ t := by
  rw [union, mem_foldl_insert, or_comm]
  exact Iff.rfl

end OrderedSet

end OntologyCompiler
