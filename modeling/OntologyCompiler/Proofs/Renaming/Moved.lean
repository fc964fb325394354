import Mathlib.Data.List.Perm.Subperm
import OntologyCompiler.Proofs.Ordered
import OntologyCompiler.Proofs.Order

/-!
# Lists in another order

Two ways to say that lists have corresponding items in different order: by a relation of the items, and by
an injective map of positions with a map of items. The first is what a reordered input comes with, the second
is what references by position need.
-/

namespace OntologyCompiler

/-- A sorted list does not depend on the order of its items. -/
theorem sortOn_id_eq {κ : Type} [Ord κ] [Std.TransOrd κ] [Std.LawfulEqOrd κ] {l l' : List κ} (h : l'.Perm l) :
    sortOn id l' = sortOn id l :=
  mergeSort_key_eq_of_perm compare id h fun _ _ _ _ => Std.LawfulEqOrd.eq_of_compare

section Sorting

variable {α β κ κ' : Type} {image : α → β} {l : List α} {l' : List β}

/-- Images in some order, sorted by keys that tell them apart, are the images of the items in an order that agrees. -/
theorem mergeSort_eq_map_of_perm {cmp : κ → κ → Ordering} {cmp' : κ' → κ' → Ordering} [Std.TransCmp cmp']
    {key : α → κ} {key' : β → κ'} (h : (l.map image).Perm l')
    (hcmp : ∀ a b, cmp' (key' (image a)) (key' (image b)) = cmp (key a) (key b))
    (hapart : ∀ a ∈ l', ∀ b ∈ l', cmp' (key' a) (key' b) = .eq → a = b) :
    l'.mergeSort (fun a b => (cmp' (key' a) (key' b)).isLE) =
      (l.mergeSort fun a b => (cmp (key a) (key b)).isLE).map image := by
  rw [mergeSort_key_eq_of_perm cmp' key' h.symm hapart]
  refine (List.map_mergeSort fun a _ b _ => ?_).symm
  rw [hcmp]

/-- Images in some order, sorted by different keys that the items have too, are the images of the sorted items. -/
theorem sortOn_eq_map_of_perm [Ord κ] [Std.TransOrd κ] [Std.LawfulEqOrd κ] {key : α → κ} {key' : β → κ}
    (h : (l.map image).Perm l') (hkey : ∀ a, key' (image a) = key a) (hnodup : (l.map key).Nodup) :
    sortOn key' l' = (sortOn key l).map image := by
  have hkeys : (l.map image).map key' = l.map key := by
    rw [List.map_map]
    exact List.map_congr_left fun a _ => hkey a
  have hnodup' : (l'.map key').Nodup := (h.map key').nodup_iff.mp (hkeys ▸ hnodup)
  apply mergeSort_eq_map_of_perm h
  · intro a b
    rw [hkey, hkey]
  · intro a ha b hb heq
    exact List.inj_on_of_nodup_map hnodup' ha hb (Std.LawfulEqOrd.eq_of_compare heq)

end Sorting

/-- What holds of an item and a later one holds of the items in their places. -/
theorem pairwise_of_forall₂ {α β : Type} {related : α → β → Prop} {R : α → α → Prop} {S : β → β → Prop} {l : List α}
    {l' : List β} (h : List.Forall₂ related l l') (hl : l.Pairwise R)
    (hS : ∀ a b c d, related a c → related b d → R a b → S c d) : l'.Pairwise S := by
  induction h with
  | nil => exact .nil
  | cons hac hrest ih =>
    obtain ⟨hfirst, hpairs⟩ := List.pairwise_cons.mp hl
    refine List.pairwise_cons.mpr ⟨fun d hd => ?_, ih hpairs⟩
    obtain ⟨b, hb, hbd⟩ := exists_of_forall₂ hrest.flip hd
    exact hS _ _ _ _ hac hbd (hfirst b hb)

/-- The items of one list correspond to those of another one in some order. -/
def Shuffled {α β : Type} (related : α → β → Prop) (l : List α) (l' : List β) : Prop :=
  ∃ mid, List.Forall₂ related l mid ∧ mid.Perm l'

namespace Shuffled

variable {α β γ δ : Type} {related : α → β → Prop} {l : List α} {l' : List β}

/-- Items in place correspond. -/
theorem of_forall₂ (h : List.Forall₂ related l l') : Shuffled related l l' := ⟨l', h, .refl l'⟩

/-- Permuted items correspond to themselves. -/
theorem of_perm {l' : List α} (h : l.Perm l') : Shuffled Eq l l' := ⟨l, List.forall₂_refl l, h⟩

/-- A correspondence can be read the other way round. -/
theorem symm (h : Shuffled related l l') : Shuffled (flip related) l' l := by
  obtain ⟨mid, hrelated, hperm⟩ := h
  obtain ⟨mid', hrelated', hperm'⟩ := List.perm_comp_forall₂ hperm.symm hrelated.flip
  exact ⟨mid', hrelated', hperm'⟩

/-- A weaker relation corresponds too. -/
theorem imp {other : α → β → Prop} (h : Shuffled related l l') (himp : ∀ a b, related a b → other a b) :
    Shuffled other l l' := by
  obtain ⟨mid, hrelated, hperm⟩ := h
  exact ⟨mid, hrelated.imp himp, hperm⟩

/-- Corresponding lists have one length. -/
theorem length_eq (h : Shuffled related l l') : l'.length = l.length := by
  obtain ⟨mid, hrelated, hperm⟩ := h
  rw [← hperm.length_eq, hrelated.length_eq]

/-- An item has a counterpart. -/
theorem exists_right (h : Shuffled related l l') {a : α} (ha : a ∈ l) : ∃ b ∈ l', related a b := by
  obtain ⟨mid, hrelated, hperm⟩ := h
  obtain ⟨b, hb, hab⟩ := exists_of_forall₂ hrelated ha
  exact ⟨b, hperm.mem_iff.mp hb, hab⟩

/-- What holds of any two items in whatever order holds of any two corresponding ones. -/
theorem pairwise {R : α → α → Prop} {S : β → β → Prop} (h : Shuffled related l l') (hl : l.Pairwise R)
    (hsymm : ∀ b c, S b c → S c b) (hS : ∀ a b c d, related a c → related b d → R a b → S c d) : l'.Pairwise S := by
  obtain ⟨mid, hrelated, hperm⟩ := h
  exact hperm.pairwise (pairwise_of_forall₂ hrelated hl hS) fun {b c} => hsymm b c

/-- What is found for the items of one list is found for those of the other. -/
theorem exists_forall₂ {found : α → γ → Prop} {found' : β → δ → Prop} {outcome : γ → δ → Prop}
    (h : Shuffled related l l')
    (hstep : ∀ a ∈ l, ∀ b c, related a b → found a c → ∃ d, found' b d ∧ outcome c d)
    {m : List γ} (hm : List.Forall₂ found l m) :
    ∃ m', List.Forall₂ found' l' m' ∧ Shuffled outcome m m' := by
  obtain ⟨mid, hrelated, hperm⟩ := h
  have hmid : ∃ n, List.Forall₂ found' mid n ∧ List.Forall₂ outcome m n := by
    clear hperm
    induction hrelated generalizing m with
    | nil => cases hm; exact ⟨[], .nil, .nil⟩
    | cons hab _ ih =>
      cases hm with
      | cons hc hm =>
        obtain ⟨d, hd, hcd⟩ := hstep _ List.mem_cons_self _ _ hab hc
        obtain ⟨n, hn, houtcome⟩ := ih (fun a ha => hstep a (List.mem_cons_of_mem _ ha)) hm
        exact ⟨d :: n, .cons hd hn, .cons hcd houtcome⟩
  obtain ⟨n, hn, houtcome⟩ := hmid
  obtain ⟨m', hm', hperm'⟩ := List.perm_comp_forall₂ hperm.symm hn
  exact ⟨m', hm', n, houtcome, hperm'.symm⟩

/-- Parts made of corresponding items correspond. -/
theorem flatMap {f : α → List γ} {g : β → List δ} {other : γ → δ → Prop} (h : Shuffled related l l')
    (hparts : ∀ a b, related a b → Shuffled other (f a) (g b)) : Shuffled other (l.flatMap f) (l'.flatMap g) := by
  obtain ⟨mid, hrelated, hperm⟩ := h
  have hmid : Shuffled other (l.flatMap f) (mid.flatMap g) := by
    clear hperm
    induction hrelated with
    | nil => exact ⟨[], .nil, .refl []⟩
    | cons hab _ ih =>
      obtain ⟨n, hn, hnperm⟩ := hparts _ _ hab
      obtain ⟨rest, hrest, hrestperm⟩ := ih
      exact ⟨n ++ rest, List.rel_append hn hrest, hnperm.append hrestperm⟩
  obtain ⟨n, hn, hnperm⟩ := hmid
  exact ⟨n, hn, hnperm.trans (hperm.flatMap_right g)⟩

/-- Images of corresponding items correspond. -/
theorem map {f : α → γ} {g : β → δ} {other : γ → δ → Prop} (h : Shuffled related l l')
    (himages : ∀ a b, related a b → other (f a) (g b)) : Shuffled other (l.map f) (l'.map g) := by
  obtain ⟨mid, hrelated, hperm⟩ := h
  exact ⟨mid.map g, List.forall₂_map_left_iff.mpr (List.forall₂_map_right_iff.mpr (hrelated.imp himages)), hperm.map g⟩

/-- Items that correspond to themselves are permuted. -/
theorem perm {l' : List α} (h : Shuffled Eq l l') : l.Perm l' := by
  obtain ⟨mid, hsame, hperm⟩ := h
  rw [List.forall₂_eq_eq_eq] at hsame
  exact hsame ▸ hperm

/-- If images of corresponding items are equal, the images of the lists are permutations of each other. -/
theorem perm_map {f : α → γ} {g : β → γ} (h : Shuffled related l l') (himages : ∀ a b, related a b → f a = g b) :
    (l.map f).Perm (l'.map g) :=
  (h.map himages).perm

end Shuffled

/-- One list has, at the moved positions, the images of the items of another one, and nothing else. -/
structure Moved {α β : Type} (move : ℕ → ℕ) (image : α → β) (l : List α) (l' : List β) : Prop where
  injective : Function.Injective move
  length_eq : l'.length = l.length
  getElem? : ∀ i, l'[move i]? = (l[i]?).map image

namespace Moved

variable {α β γ δ : Type} {move : ℕ → ℕ} {image : α → β} {l : List α} {l' : List β}

/-- The places of the moved items are those of the other list. -/
theorem perm_zipIdx (h : Moved move image l l') : (l.zipIdx.map (Prod.map image move)).Perm l'.zipIdx := by
  have hnodup : (l.zipIdx.map (Prod.map image move)).Nodup := by
    have hplaces : (l.zipIdx.map Prod.snd).Nodup := by
      rw [List.zipIdx_map_snd]
      exact List.nodup_range'
    rw [List.Nodup, List.pairwise_map] at hplaces ⊢
    exact hplaces.imp fun hne heq => hne (h.injective (Prod.mk.inj heq).2)
  apply (hnodup.subperm ?_).perm_of_length_le
  · simp [h.length_eq]
  · intro x hx
    obtain ⟨⟨a, i⟩, hmem, rfl⟩ := List.mem_map.mp hx
    rw [List.mem_zipIdx_iff_getElem?] at hmem ⊢
    exact (h.getElem? i).trans (by rw [hmem]; rfl)

/-- Moved items are permuted. -/
theorem perm (h : Moved move image l l') : (l.map image).Perm l' := by
  have hperm := h.perm_zipIdx.map Prod.fst
  rw [List.zipIdx_map_fst, List.map_map] at hperm
  have hfst : (Prod.fst ∘ Prod.map image move : α × ℕ → β) = image ∘ Prod.fst := rfl
  rwa [hfst, ← List.map_map, List.zipIdx_map_fst] at hperm

/-- The moved items and their images. -/
theorem mem_iff (h : Moved move image l l') {b : β} : b ∈ l' ↔ ∃ a ∈ l, image a = b := by
  rw [← h.perm.mem_iff, List.mem_map]

/-- What is found in moved items is what is found in the items, in some order. -/
theorem perm_filterMap {f : α → Option γ} {g : β → Option γ} (h : Moved move image l l')
    (hfound : ∀ a ∈ l, g (image a) = f a) : (l'.filterMap g).Perm (l.filterMap f) := by
  apply (h.perm.symm.filterMap g).trans
  rw [List.filterMap_map]
  exact .of_eq (List.filterMap_congr hfound)

/-- What moved items contain is what the items contain, in some order. -/
theorem perm_flatMap {f : α → List γ} {g : β → List γ} (h : Moved move image l l')
    (hparts : ∀ a ∈ l, g (image a) = f a) : (l'.flatMap g).Perm (l.flatMap f) := by
  apply (h.perm.symm.flatMap_right g).trans
  rw [List.flatMap_map]
  exact .of_eq (List.flatMap_congr hparts)

/-- Corresponding changes of all items. -/
theorem map {f : α → γ} {g : β → δ} {after : γ → δ} (h : Moved move image l l')
    (hchange : ∀ a ∈ l, g (image a) = after (f a)) : Moved move after (l.map f) (l'.map g) where
  injective := h.injective
  length_eq := by rw [List.length_map, List.length_map, h.length_eq]
  getElem? := by
    intro i
    rw [List.getElem?_map, List.getElem?_map, h.getElem?]
    cases ha : l[i]? with
    | none => rfl
    | some a => exact congrArg some (hchange a (List.mem_of_getElem? ha))

/-- Corresponding changes of corresponding items. -/
theorem modify {image : α → α} {l' : List α} {f g : α → α} (h : Moved move image l l')
    (hchange : ∀ a ∈ l, g (image a) = image (f a)) (i : ℕ) :
    Moved move image (l.modify i f) (l'.modify (move i) g) where
  injective := h.injective
  length_eq := by rw [List.length_modify, List.length_modify, h.length_eq]
  getElem? := by
    intro j
    rw [List.getElem?_modify, List.getElem?_modify, h.getElem?]
    cases ha : l[j]? with
    | none => rfl
    | some a =>
      by_cases hij : i = j
      · simp [hij, hchange a (List.mem_of_getElem? ha)]
      · simp [hij, h.injective.ne hij]

/-- A position is moved behind one that stays. -/
def behind (move : ℕ → ℕ) : ℕ → ℕ
  | 0 => 0
  | i + 1 => move i + 1

/-- The first two positions change places. -/
def exchange : ℕ → ℕ
  | 0 => 1
  | 1 => 0
  | i + 2 => i + 2

/-- Permuted items are moved. -/
theorem exists_of_perm {l l' : List α} (h : l.Perm l') : ∃ move, Moved move id l l' := by
  induction h with
  | nil => exact ⟨id, fun _ _ h => h, rfl, fun i => rfl⟩
  | cons a _ ih =>
    obtain ⟨move, hmove⟩ := ih
    refine ⟨behind move, ?_, by simp [hmove.length_eq], ?_⟩
    · rintro (_ | i) (_ | j) hij
      · rfl
      · cases hij
      · cases hij
      · exact congrArg (· + 1) (hmove.injective (Nat.succ.inj hij))
    · rintro (_ | i)
      · rfl
      · simpa [behind] using hmove.getElem? i
  | swap a b l =>
    refine ⟨exchange, ?_, rfl, ?_⟩
    · rintro (_ | _ | i) (_ | _ | j) hij <;> simp_all [exchange]
    · rintro (_ | _ | i) <;> simp [exchange]
  | trans _ _ ih ih' =>
    obtain ⟨move, hmove⟩ := ih
    obtain ⟨move', hmove'⟩ := ih'
    refine ⟨move' ∘ move, hmove'.injective.comp hmove.injective, ?_, fun i => ?_⟩
    · rw [hmove'.length_eq, hmove.length_eq]
    · rw [Function.comp_apply, hmove'.getElem?, hmove.getElem?, Option.map_id_fun, id, id]

end Moved

/-- Corresponding items are at moved positions. -/
structure Placed {α β : Type} (related : α → β → Prop) (move : ℕ → ℕ) (l : List α) (l' : List β) : Prop where
  injective : Function.Injective move
  places : Shuffled (fun x y => related x.1 y.1 ∧ y.2 = move x.2) l.zipIdx l'.zipIdx

namespace Placed

variable {α β γ δ : Type} {related : α → β → Prop} {move : ℕ → ℕ} {l : List α} {l' : List β}

/-- Items in place have their positions in common. -/
theorem forall₂_zipIdx (h : List.Forall₂ related l l') (n : ℕ) :
    List.Forall₂ (fun x y => related x.1 y.1 ∧ y.2 = x.2) (l.zipIdx n) (l'.zipIdx n) := by
  induction h generalizing n with
  | nil => exact .nil
  | cons hab _ ih => exact .cons ⟨hab, rfl⟩ (ih (n + 1))

/-- Items that correspond in some order have positions. -/
theorem exists_of_shuffled (h : Shuffled related l l') : ∃ move, Placed related move l l' := by
  obtain ⟨mid, hrelated, hperm⟩ := h
  obtain ⟨move, hmove⟩ := Moved.exists_of_perm hperm
  refine ⟨move, hmove.injective, _, ?_, hmove.perm_zipIdx⟩
  rw [List.forall₂_map_right_iff]
  apply (forall₂_zipIdx hrelated 0).imp
  intro x y hxy
  exact ⟨hxy.1, congrArg move hxy.2⟩

/-- An item has a counterpart at the moved position. -/
theorem exists_right (h : Placed related move l l') {a : α} {i : ℕ} (ha : l[i]? = some a) :
    ∃ b, l'[move i]? = some b ∧ related a b := by
  have hmem : (a, i) ∈ l.zipIdx := List.mem_zipIdx_iff_getElem?.mpr ha
  obtain ⟨⟨b, j⟩, hb, hab, rfl⟩ := h.places.exists_right hmem
  exact ⟨b, List.mem_zipIdx_iff_getElem?.mp hb, hab⟩

/-- An item at a moved position has a counterpart. -/
theorem exists_left (h : Placed related move l l') {b : β} {i : ℕ} (hb : l'[move i]? = some b) :
    ∃ a, l[i]? = some a ∧ related a b := by
  have hmem : (b, move i) ∈ l'.zipIdx := List.mem_zipIdx_iff_getElem?.mpr hb
  obtain ⟨⟨a, j⟩, ha, hab, hmove⟩ := h.places.symm.exists_right hmem
  obtain rfl := h.injective hmove
  exact ⟨a, List.mem_zipIdx_iff_getElem?.mp ha, hab⟩

/-- What is made of corresponding items and their positions is moved. -/
theorem moved {f : α × ℕ → γ} {g : β × ℕ → δ} {image : γ → δ} (h : Placed related move l l')
    (himage : ∀ a b i, l[i]? = some a → related a b → g (b, move i) = image (f (a, i))) :
    Moved move image (l.zipIdx.map f) (l'.zipIdx.map g) where
  injective := h.injective
  length_eq := by
    have hlength := h.places.length_eq
    simpa using hlength
  getElem? := by
    intro i
    simp only [List.getElem?_map, List.getElem?_zipIdx, Nat.zero_add]
    cases ha : l[i]? with
    | some a =>
      obtain ⟨b, hb, hab⟩ := h.exists_right ha
      rw [hb]
      exact congrArg some (himage a b i ha hab)
    | none =>
      cases hb : l'[move i]? with
      | none => rfl
      | some b =>
        obtain ⟨a, hsome, -⟩ := h.exists_left hb
        rw [ha] at hsome
        cases hsome

end Placed

end OntologyCompiler
