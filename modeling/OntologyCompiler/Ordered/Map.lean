/-!
# Finite maps as ascending lists

A map is the list of its entries in strictly ascending key order. Setting a key replaces the value
that was there, so among repeated keys the last one wins, and a traversal visits entries in key order.
-/

namespace OntologyCompiler

/-- A finite map, listed as its entries in strictly ascending order of keys. -/
structure OrderedMap (κ : Type) [Ord κ] (β : Type) where
  entries : List (κ × β)
  ascending : entries.Pairwise fun a b => compare a.1 b.1 = .lt

namespace OrderedMap

variable {κ β : Type} [Ord κ]

/-- Sets a key in an ascending list of entries. -/
def insertInto (k : κ) (v : β) : List (κ × β) → List (κ × β)
  | [] => [(k, v)]
  | e :: es =>
    match compare k e.1 with
    | .lt => (k, v) :: e :: es
    | .eq => (k, v) :: es
    | .gt => e :: insertInto k v es

/-- An entry left by an insertion has the key that was set or was there before. -/
theorem key_of_mem_insertInto {k : κ} {v : β} {e : κ × β} {l : List (κ × β)}
    (h : e ∈ insertInto k v l) : e = (k, v) ∨ e ∈ l := by
  induction l with
  | nil => simpa [insertInto] using h
  | cons f es ih =>
    unfold insertInto at h
    split at h
    · simpa using h
    · rcases List.mem_cons.mp h with rfl | h
      · simp
      · simp [h]
    · rcases List.mem_cons.mp h with rfl | h
      · simp
      · rcases ih h with rfl | h
        · simp
        · simp [h]

/-- Setting a key keeps the entries ascending. -/
theorem pairwise_insertInto [Std.TransOrd κ] {k : κ} {v : β} {l : List (κ × β)}
    (h : l.Pairwise fun a b => compare a.1 b.1 = .lt) :
    (insertInto k v l).Pairwise fun a b => compare a.1 b.1 = .lt := by
  induction l with
  | nil => simp [insertInto]
  | cons f es ih =>
    have hf := List.pairwise_cons.mp h
    unfold insertInto
    split
    next hlt =>
      refine List.pairwise_cons.mpr ⟨?_, h⟩
      intro e he
      rcases List.mem_cons.mp he with rfl | he
      · exact hlt
      · exact Std.TransCmp.lt_trans hlt (hf.1 e he)
    next heq =>
      refine List.pairwise_cons.mpr ⟨?_, hf.2⟩
      intro e he
      exact Std.TransCmp.lt_of_eq_of_lt heq (hf.1 e he)
    next hgt =>
      refine List.pairwise_cons.mpr ⟨?_, ih hf.2⟩
      intro e he
      rcases key_of_mem_insertInto he with rfl | he
      · exact Std.OrientedCmp.lt_of_gt hgt
      · exact hf.1 e he

/-- The map without entries. -/
def empty : OrderedMap κ β := ⟨[], List.Pairwise.nil⟩

instance : EmptyCollection (OrderedMap κ β) := ⟨empty⟩

instance : Inhabited (OrderedMap κ β) := ⟨empty⟩

instance [DecidableEq κ] [DecidableEq β] : DecidableEq (OrderedMap κ β)
  | ⟨l, hl⟩, ⟨m, hm⟩ =>
    if h : l = m then isTrue (by subst h; rfl) else isFalse (fun e => h (congrArg entries e))

/-- The map with one key set. -/
def insert [Std.TransOrd κ] (m : OrderedMap κ β) (k : κ) (v : β) : OrderedMap κ β :=
  ⟨insertInto k v m.entries, pairwise_insertInto m.ascending⟩

/-- The map without one key. -/
def erase [DecidableEq κ] (m : OrderedMap κ β) (k : κ) : OrderedMap κ β :=
  ⟨m.entries.filter fun e => e.1 ≠ k, m.ascending.sublist List.filter_sublist⟩

/-- The value of a key. -/
def get? [DecidableEq κ] (m : OrderedMap κ β) (k : κ) : Option β :=
  (m.entries.find? fun e => e.1 = k).map Prod.snd

/-- The map of a list of entries; of entries with one key the last one wins. -/
def ofList [Std.TransOrd κ] (l : List (κ × β)) : OrderedMap κ β :=
  l.foldl (fun m e => m.insert e.1 e.2) empty

/-- The keys in ascending order. -/
def keys (m : OrderedMap κ β) : List κ := m.entries.map Prod.fst

/-- The values in the order of their keys. -/
def values (m : OrderedMap κ β) : List β := m.entries.map Prod.snd

/-- The number of entries. -/
def size (m : OrderedMap κ β) : Nat := m.entries.length

/-- Two maps are equal when they list the same entries. -/
theorem ext_entries {m n : OrderedMap κ β} (h : m.entries = n.entries) : m = n := by
  cases m; cases n; simp_all

section Lookup

variable [DecidableEq κ] [Std.LawfulEqOrd κ]

/-- Setting a key in a list of entries is seen at that key only. -/
theorem find?_insertInto {k k' : κ} {v : β} {l : List (κ × β)} :
    ((insertInto k v l).find? fun e => e.1 = k').map Prod.snd =
      if k' = k then some v else (l.find? fun e => e.1 = k').map Prod.snd := by
  induction l with
  | nil =>
    by_cases hk : k' = k
    · simp [insertInto, hk]
    · simp [insertInto, hk, Ne.symm hk]
  | cons e es ih =>
    unfold insertInto
    split
    next =>
      by_cases hk : k' = k
      · simp [hk]
      · simp [hk, Ne.symm hk]
    next heq =>
      have hke : k = e.1 := Std.LawfulEqOrd.eq_of_compare heq
      by_cases hk : k' = k
      · simp [hk]
      · simp [hk, Ne.symm hk, hke ▸ Ne.symm hk]
    next hgt =>
      have hke : e.1 ≠ k := by
        intro heq
        subst heq
        rw [Std.compare_self] at hgt
        cases hgt
      by_cases hek : e.1 = k'
      · simp [hek, hek ▸ hke]
      · simp [hek, ih]

/-- An ascending list of entries has one entry for a key. -/
theorem find?_eq_some_of_mem {l : List (κ × β)} (h : l.Pairwise fun a b => compare a.1 b.1 = .lt) {k : κ} {v : β}
    (hmem : (k, v) ∈ l) : (l.find? fun e => e.1 = k) = some (k, v) := by
  induction l with
  | nil => cases hmem
  | cons e es ih =>
    obtain ⟨hfirst, hrest⟩ := List.pairwise_cons.mp h
    rcases List.mem_cons.mp hmem with rfl | hmem
    · simp
    · have hne : e.1 ≠ k := fun heq => by
        have hlt := hfirst (k, v) hmem
        rw [heq, Std.compare_self] at hlt
        cases hlt
      simp [hne, ih hrest hmem]

/-- A key has a value exactly if the map lists both. -/
theorem get?_eq_some_iff {m : OrderedMap κ β} {k : κ} {v : β} : m.get? k = some v ↔ (k, v) ∈ m.entries := by
  constructor
  · intro h
    obtain ⟨e, he, rfl⟩ := Option.map_eq_some_iff.mp h
    have hkey : e.1 = k := by simpa using List.find?_some he
    exact hkey ▸ List.mem_of_find?_eq_some he
  · intro h
    rw [get?, find?_eq_some_of_mem m.ascending h]
    rfl

variable [Std.TransOrd κ]

/-- A set key has its new value, any other key the value it had. -/
theorem get?_insert {m : OrderedMap κ β} {k k' : κ} {v : β} :
    (m.insert k v).get? k' = if k' = k then some v else m.get? k' := find?_insertInto

/-- Entries with different keys set one after another are all found. -/
theorem get?_foldl_insert {l : List (κ × β)} {m : OrderedMap κ β} (h : (l.map Prod.fst).Nodup) {k : κ}
    {v : β} :
    (l.foldl (fun m e => m.insert e.1 e.2) m).get? k = some v ↔
      (k, v) ∈ l ∨ (∀ e ∈ l, e.1 ≠ k) ∧ m.get? k = some v := by
  induction l generalizing m with
  | nil => simp
  | cons e es ih =>
    obtain ⟨hfresh, hnodup⟩ := List.nodup_cons.mp h
    rw [List.foldl_cons, ih hnodup, get?_insert]
    by_cases hk : k = e.1
    · subst hk
      have hnone : ∀ f ∈ es, f.1 ≠ e.1 := fun f hf heq => hfresh (List.mem_map.mpr ⟨f, hf, heq⟩)
      have habsent : (e.1, v) ∉ es := fun hmem => hnone _ hmem rfl
      constructor
      · intro hor
        rcases hor with hmem | ⟨-, hv⟩
        · exact absurd hmem habsent
        · simp only [if_true, Option.some.injEq] at hv
          exact Or.inl (hv ▸ List.mem_cons_self)
      · intro hor
        rcases hor with hmem | ⟨hall, -⟩
        · rcases List.mem_cons.mp hmem with heq | hmem
          · exact Or.inr ⟨hnone, by rw [if_pos rfl, ← heq]⟩
          · exact absurd hmem habsent
        · exact absurd rfl (hall e List.mem_cons_self)
    · have hne : (k, v) ≠ e := fun heq => hk (heq ▸ rfl)
      simp [hk, hne, Ne.symm hk]

/-- In a map of entries with different keys a key has the value that its entry gives. -/
theorem get?_ofList {l : List (κ × β)} (h : (l.map Prod.fst).Nodup) {k : κ} {v : β} :
    (ofList l).get? k = some v ↔ (k, v) ∈ l := by
  rw [ofList, get?_foldl_insert h]
  exact or_iff_left fun hnone => nomatch hnone.2

end Lookup

end OrderedMap

end OntologyCompiler
