import OntologyCompiler.Proofs.Arena

/-!
# The order of visits

Classes are visited by qualified name. Qualified names are different, so the order is strict and
complete: every class is visited once, and of two classes one comes before the other. For the same
reason a search by name finds the one item of that name.
-/

namespace OntologyCompiler

section Comparison

variable {α κ : Type} (cmp : κ → κ → Ordering) [Std.TransCmp cmp] (key : α → κ)

/-- Of two keys one is not after the other. -/
theorem total_isLE (a b : κ) : ((cmp a b).isLE || (cmp b a).isLE) = true := by
  rcases h : cmp a b with _ | _ | _
  · rfl
  · rfl
  · simp [Std.OrientedCmp.lt_of_gt h]

/-- Sorting by comparing keys puts items in the order of their keys. -/
theorem pairwise_mergeSort_key (l : List α) : (l.mergeSort fun a b => (cmp (key a) (key b)).isLE).Pairwise
    fun a b => (cmp (key a) (key b)).isLE = true :=
  List.pairwise_mergeSort (fun _ _ _ => Std.TransCmp.isLE_trans) (fun a b => total_isLE cmp (key a) (key b)) l

/-- Sorting forgets the order of items that are told apart by their keys. -/
theorem mergeSort_key_eq_of_perm {l l' : List α} (hperm : l'.Perm l)
    (hapart : ∀ a ∈ l', ∀ b ∈ l', cmp (key a) (key b) = .eq → a = b) :
    l'.mergeSort (fun a b => (cmp (key a) (key b)).isLE) = l.mergeSort fun a b => (cmp (key a) (key b)).isLE := by
  let order (a b : α) : Bool := (cmp (key a) (key b)).isLE
  have hsorted : (l'.mergeSort order).Perm (l.mergeSort order) :=
    ((List.mergeSort_perm l' order).trans hperm).trans (List.mergeSort_perm l order).symm
  refine hsorted.eq_of_pairwise (fun a b ha hb hab hba => ?_) (pairwise_mergeSort_key cmp key l')
    (pairwise_mergeSort_key cmp key l)
  have ha' : a ∈ l' := (List.mergeSort_perm l' _).mem_iff.mp ha
  have hb' : b ∈ l' := hperm.mem_iff.mpr ((List.mergeSort_perm l _).mem_iff.mp hb)
  exact hapart a ha' b hb' (Std.OrientedCmp.isLE_antisymm hab hba)

end Comparison

section Sorting

variable {α κ : Type} [Ord κ] {key : α → κ} {l : List α}

/-- Sorting by a key permutes. -/
theorem perm_sortOn : (sortOn key l).Perm l := List.mergeSort_perm l _

/-- Sorting by a key puts keys in ascending order. -/
theorem pairwise_sortOn [Std.TransOrd κ] :
    (sortOn key l).Pairwise fun a b => (compare (key a) (key b)).isLE = true :=
  pairwise_mergeSort_key compare key l

/-- Sorting by different keys puts them in strictly ascending order. -/
theorem pairwise_lt_sortOn [Std.TransOrd κ] [Std.LawfulEqOrd κ] (h : (l.map key).Nodup) :
    (sortOn key l).Pairwise fun a b => compare (key a) (key b) = .lt := by
  have hdifferent := List.pairwise_map.mp (((@perm_sortOn _ _ _ key l).map key).nodup_iff.mpr h)
  apply (pairwise_sortOn.and hdifferent).imp
  intro a b hab
  rcases Ordering.isLE_iff_eq_lt_or_eq_eq.mp hab.1 with hlt | heq
  · exact hlt
  · exact absurd (Std.LawfulEqOrd.eq_of_compare heq) hab.2

end Sorting

/-- Among items with different keys a test for a key finds exactly the item that has it. -/
theorem find?_eq_some_iff_key {α κ : Type} {key : α → κ} {l : List α} {k : κ} {test : α → Bool} {a : α}
    (h : (l.map key).Nodup) (htest : ∀ b ∈ l, (test b = true ↔ key b = k)) :
    l.find? test = some a ↔ a ∈ l ∧ key a = k := by
  constructor
  · intro hfind
    have hmem := List.mem_of_find?_eq_some hfind
    exact ⟨hmem, (htest a hmem).mp (List.find?_some hfind)⟩
  · intro hkept
    obtain ⟨hmem, hkey⟩ := hkept
    cases hfind : l.find? test with
    | none => exact absurd ((htest a hmem).mpr hkey) (List.find?_eq_none.mp hfind a hmem)
    | some b =>
      have hb := List.mem_of_find?_eq_some hfind
      have hbkey := (htest b hb).mp (List.find?_some hfind)
      rw [List.inj_on_of_nodup_map h hb hmem (hbkey.trans hkey.symm)]

namespace Ontology

/-- The first class comes before the second in the order of qualified names. -/
def Precedes (o : Ontology) (c d : ClassId) : Prop := compare (o.className c) (o.className d) = .lt

instance (o : Ontology) (c d : ClassId) : Decidable (o.Precedes c d) :=
  inferInstanceAs (Decidable (compare (o.className c) (o.className d) = .lt))

variable {o o' : Ontology} {a b c : ClassId}

/-- No class comes before itself. -/
theorem Precedes.irrefl : ¬ o.Precedes a a := fun h => by
  rw [Precedes, Std.compare_self] at h
  cases h

/-- Of two classes only one comes before the other. -/
theorem Precedes.asymm (h : o.Precedes a b) : ¬ o.Precedes b a := fun h' => by
  have haa : o.Precedes a a := Std.TransCmp.lt_trans (show compare _ _ = .lt from h) h'
  exact Precedes.irrefl haa

/-- A class before an earlier class comes before a later one. -/
theorem Precedes.trans (h : o.Precedes a b) (h' : o.Precedes b c) : o.Precedes a c :=
  Std.TransCmp.lt_trans (show compare _ _ = .lt from h) h'

/-- The order of classes is in the fixed part. -/
theorem precedes_of_fixed_eq (h : o'.fixed = o.fixed) : o'.Precedes a b ↔ o.Precedes a b := by
  rw [Precedes, Precedes, className_of_fixed_eq h, className_of_fixed_eq h]

namespace Arena

/-- Of two different classes one comes before the other. -/
theorem precedes_or_precedes (ho : o.Arena) {x y : Class} (ha : o.class? a = some x) (hb : o.class? b = some y)
    (hne : a ≠ b) : o.Precedes a b ∨ o.Precedes b a := by
  rcases h : compare (o.className a) (o.className b) with _ | _ | _
  · exact Or.inl h
  · exact absurd (ho.id_eq_of_className_eq ha hb (Std.LawfulEqOrd.eq_of_compare h)) hne
  · exact Or.inr (Std.OrientedCmp.lt_of_gt h)

/-- Exactly the classes are visited. -/
theorem mem_classesByQualifiedName (ho : o.Arena) :
    a ∈ o.classesByQualifiedName ↔ ∃ x, o.class? a = some x := by
  simp only [classesByQualifiedName, List.mem_map, perm_sortOn.mem_iff]
  constructor
  · intro hall
    obtain ⟨x, hx, rfl⟩ := hall
    exact ⟨x, ho.class?_of_mem hx⟩
  · intro hall
    obtain ⟨x, hx⟩ := hall
    exact ⟨x, mem_of_class? hx, ho.class_id hx⟩

/-- Classes are visited in strict order. -/
theorem pairwise_classesByQualifiedName (ho : o.Arena) : o.classesByQualifiedName.Pairwise o.Precedes := by
  rw [classesByQualifiedName, List.pairwise_map]
  apply (pairwise_lt_sortOn ho.class_names_nodup).imp_of_mem
  intro x y hx hy hlt
  have hx' := ho.class?_of_mem (perm_sortOn.mem_iff.mp hx)
  have hy' := ho.class?_of_mem (perm_sortOn.mem_iff.mp hy)
  rw [Precedes, className_eq hx', className_eq hy']
  exact hlt

end Arena

end Ontology

end OntologyCompiler
