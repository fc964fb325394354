import OntologyCompiler.Backend.Naming
import OntologyCompiler.Proofs.Declarations.Grammar
import OntologyCompiler.Proofs.Literals.Numbers

/-!
# Constants of enumeration members

A member is named by a constant in upper case, and different members may have the same constant. Then the first numbered
one is taken that no member before has. The search for it goes on for as long as its candidates are taken, without a
bound of its own. It ends because the candidates are all different: one more of them than there are taken names cannot
all be taken. So as many numbers as there are taken names are enough to try, and the search finds the least number that
is free.
-/

namespace OntologyCompiler.Naming

open Computability

/-- An upper case letter, then upper case letters, digits and underscores; an underscore may come first as well. -/
def constantNames : Language Char :=
  Grammar.character (fun c => c.isUpper || c == '_') * (Grammar.character fun c => c.isUpper || c.isDigit || c == '_')∗

/-- The search for a name that is not taken, from a candidate on and with the number of the next one. -/
inductive Search (taken : List String) (base : String) : String → Nat → String → Prop
  | free {candidate : String} {n : Nat} (hfree : candidate ∉ taken) : Search taken base candidate n candidate
  | next {candidate : String} {n : Nat} {found : String} (htaken : candidate ∈ taken)
      (hnext : Search taken base (numbered base n) (n + 1) found) : Search taken base candidate n found

/-- The base if it is not taken, and otherwise the base with the least number from 2 on that makes it so. -/
def Chosen (taken : List String) (base name : String) : Prop :=
  (base ∉ taken ∧ name = base) ∨
    (base ∈ taken ∧ ∃ n, 2 ≤ n ∧ name = numbered base n ∧ numbered base n ∉ taken ∧
      ∀ k, 2 ≤ k → k < n → numbered base k ∈ taken)

variable {taken taken' : List String} {base name name' candidate : String} {c : Char} {cs : List Char} {n : Nat}

section Legal

/-- A name of a constant is a first character and others. -/
theorem cons_mem_constantNames_iff : c :: cs ∈ constantNames ↔
    (c.isUpper || c == '_') = true ∧ ∀ d ∈ cs, (d.isUpper || d.isDigit || d == '_') = true := by
  rw [constantNames, Language.mem_mul]
  constructor
  · rintro ⟨_, ⟨d, hd, rfl⟩, rest, hrest, heq⟩
    obtain ⟨rfl, rfl⟩ := List.cons.inj heq
    exact ⟨hd, Grammar.mem_kstar_character.mp hrest⟩
  · rintro ⟨hc, hcs⟩
    exact ⟨[c], ⟨c, hc, rfl⟩, cs, Grammar.mem_kstar_character.mpr hcs, rfl⟩

/-- All characters of a constant may stand behind its first one. -/
theorem forall_of_mem_constantNames (h : cs ∈ constantNames) :
    ∀ d ∈ cs, (d.isUpper || d.isDigit || d == '_') = true := by
  cases cs with
  | nil => exact nofun
  | cons c cs =>
    obtain ⟨hc, hcs⟩ := cons_mem_constantNames_iff.mp h
    refine List.forall_mem_cons.mpr ⟨?_, hcs⟩
    rw [Bool.or_right_comm, hc, Bool.true_or]

/-- Every character becomes one that a constant may have. -/
theorem isUpper_or_isDigit_constantChar (c : Char) :
    ((constantChar c).isUpper || (constantChar c).isDigit || constantChar c == '_') = true := by
  unfold constantChar
  split
  next halphanum =>
    rcases Bool.or_eq_true_iff.mp halphanum with halpha | hdigit
    · rw [Char.isUpper_toUpper_eq_isAlpha, halpha, Bool.true_or, Bool.true_or]
    · have hlower : c.isLower = false := by
        have hnine : '9'.val.toNat < 'a'.val.toNat := by decide
        simp only [Char.isDigit, Char.isLower, Bool.and_eq_true, decide_eq_true_eq, Bool.and_eq_false_iff,
          decide_eq_false_iff_not, ge_iff_le, UInt32.le_iff_toNat_le] at hdigit ⊢
        omega
      rw [Char.toUpper_eq_of_not_isLower (by simp [hlower]), hdigit, Bool.or_true, Bool.true_or]
  next => rfl

/-- The constant of a member is a legal name, whatever the member is called. -/
theorem constant_mem_constantNames (member : String) : (constant member).toList ∈ constantNames := by
  have hchars : ∀ d ∈ (snakeChars false member.toList).map constantChar,
      (d.isUpper || d.isDigit || d == '_') = true :=
    List.forall_mem_map.mpr fun c _ => isUpper_or_isDigit_constantChar c
  rw [constant, String.toList_ofList]
  unfold constantChars
  dsimp only
  split
  next => exact cons_mem_constantNames_iff.mpr ⟨rfl, nofun⟩
  next c cs hupper =>
    obtain ⟨hc, hcs⟩ := List.forall_mem_cons.mp (hupper ▸ hchars)
    split
    next => exact cons_mem_constantNames_iff.mpr ⟨rfl, hchars⟩
    next hdigit =>
      rw [hupper, cons_mem_constantNames_iff]
      simp only [Bool.or_eq_true, hdigit, Bool.false_eq_true, or_false] at hc ⊢
      exact ⟨hc, by simpa using hcs⟩

/-- A legal name stays legal with a number behind it. -/
theorem numbered_mem_constantNames (h : base.toList ∈ constantNames) (n : Nat) :
    (numbered base n).toList ∈ constantNames := by
  have hnumber : ∀ d ∈ ("_" ++ n.repr).toList, (d.isUpper || d.isDigit || d == '_') = true := by
    rw [String.toList_append]
    refine List.forall_mem_cons.mpr ⟨rfl, fun d hd => ?_⟩
    rw [Text.isDigit_of_mem_repr n d hd, Bool.or_true, Bool.true_or]
  rw [numbered, String.toList_append]
  cases hbase : base.toList with
  | nil =>
    obtain ⟨_, ⟨c, -, rfl⟩, _, -, heq⟩ := Language.mem_mul.mp (hbase ▸ h)
    cases heq
  | cons c cs =>
    obtain ⟨hc, hcs⟩ := cons_mem_constantNames_iff.mp (hbase ▸ h)
    exact cons_mem_constantNames_iff.mpr ⟨hc, List.forall_mem_append.mpr ⟨hcs, hnumber⟩⟩

end Legal

/-- Different numbers make different names. -/
theorem numbered_injective (base : String) : Function.Injective (numbered base) := by
  intro m n h
  have hchars := congrArg String.toList h
  simp only [numbered, String.toList_append] at hchars
  have hdigits : Nat.toDigits 10 m = Nat.toDigits 10 n := by
    rw [← Nat.toList_repr, ← Nat.toList_repr]
    exact List.append_cancel_left (List.append_cancel_left hchars)
  rw [← @Nat.ofDigitChars_ten_toDigits m, hdigits, Nat.ofDigitChars_ten_toDigits]

/-- From every number on there is one that makes a free name, at most as far away as there are taken names, and none
before it does. -/
theorem exists_least_free (taken : List String) (base : String) (start : Nat) :
    ∃ k ≤ taken.length, numbered base (start + k) ∉ taken ∧ ∀ j < k, numbered base (start + j) ∈ taken := by
  have hfree : ∃ k, k ≤ taken.length ∧ numbered base (start + k) ∉ taken := by
    by_contra hnone
    simp only [not_exists, not_and, not_not] at hnone
    let candidates := (List.range (taken.length + 1)).map fun k => numbered base (start + k)
    have hnodup : candidates.Nodup := List.nodup_range.map fun i j hij => by
      exact Nat.add_left_cancel (numbered_injective base hij)
    have hsubset : candidates ⊆ taken := by
      intro name hname
      obtain ⟨k, hk, rfl⟩ := List.mem_map.mp hname
      exact hnone k (by have := List.mem_range.mp hk; omega)
    have hlength := (hnodup.subperm hsubset).length_le
    simp [candidates] at hlength
  refine ⟨Nat.find hfree, (Nat.find_spec hfree).1, (Nat.find_spec hfree).2, fun j hj => ?_⟩
  have hbound := (Nat.find_spec hfree).1
  by_contra htaken
  exact Nat.find_min hfree hj ⟨by omega, htaken⟩

/-- The first free number is found if it is within the bound. -/
theorem freeNumbered_eq {fuel start k : Nat} (hfuel : k ≤ fuel) (hfree : numbered base (start + k) ∉ taken)
    (htaken : ∀ j < k, numbered base (start + j) ∈ taken) :
    freeNumbered taken base fuel start = numbered base (start + k) := by
  induction k generalizing fuel start with
  | zero => cases fuel <;> simp_all [freeNumbered]
  | succ k ih =>
    obtain ⟨fuel, rfl⟩ : ∃ f, fuel = f + 1 := ⟨fuel - 1, by omega⟩
    have hstart : numbered base start ∈ taken := htaken 0 (by omega)
    have hshift (j : Nat) : start + 1 + j = start + (j + 1) := by omega
    rw [freeNumbered, if_pos (List.contains_iff_mem.mpr hstart), ← hshift k]
    refine ih (by omega) (by rwa [hshift]) fun j hj => ?_
    rw [hshift]
    exact htaken (j + 1) (by omega)

/-- The base or the least free number is chosen. -/
theorem chosen_freeName (taken : List String) (base : String) : Chosen taken base (freeName taken base) := by
  unfold freeName
  split
  next hcontains =>
    obtain ⟨k, hk, hfree, htaken⟩ := exists_least_free taken base 2
    rw [freeNumbered_eq hk hfree htaken]
    refine .inr ⟨List.contains_iff_mem.mp hcontains, 2 + k, by omega, rfl, hfree, fun j hj hlt => ?_⟩
    obtain ⟨i, rfl⟩ := Nat.exists_eq_add_of_le hj
    exact htaken i (by omega)
  next hcontains => exact .inl ⟨mt List.contains_iff_mem.mpr hcontains, rfl⟩

/-- What is chosen is not taken. -/
theorem Chosen.notMem (h : Chosen taken base name) : name ∉ taken := by
  obtain ⟨hfree, rfl⟩ | ⟨-, n, -, rfl, hfree, -⟩ := h <;> exact hfree

/-- What is chosen has a legal name if the base has. -/
theorem Chosen.mem_constantNames (h : Chosen taken base name) (hbase : base.toList ∈ constantNames) :
    name.toList ∈ constantNames := by
  obtain ⟨-, rfl⟩ | ⟨-, n, -, rfl, -⟩ := h
  · exact hbase
  · exact numbered_mem_constantNames hbase n

/-- Only what is taken decides what is chosen, not the order. -/
theorem Chosen.congr (h : Chosen taken base name) (hsame : ∀ x, x ∈ taken ↔ x ∈ taken') : Chosen taken' base name := by
  simpa only [Chosen, hsame] using h

/-- The search passes over taken numbers. -/
theorem search_of_taken {start k : Nat} (hfree : numbered base (start + k) ∉ taken)
    (htaken : ∀ j < k, numbered base (start + j) ∈ taken) :
    Search taken base (numbered base start) (start + 1) (numbered base (start + k)) := by
  induction k generalizing start with
  | zero => exact .free hfree
  | succ k ih =>
    have hshift (j : Nat) : start + 1 + j = start + (j + 1) := by omega
    refine .next (htaken 0 (by omega)) ?_
    rw [← hshift k]
    refine ih (by rwa [hshift]) fun j hj => ?_
    rw [hshift]
    exact htaken (j + 1) (by omega)

/-- The search ends with what is chosen. -/
theorem Chosen.search (h : Chosen taken base name) : Search taken base base 2 name := by
  obtain ⟨hfree, rfl⟩ | ⟨hbase, n, hn, rfl, hfree, htaken⟩ := h
  · exact .free hfree
  · obtain ⟨k, rfl⟩ := Nat.exists_eq_add_of_le hn
    exact .next hbase (search_of_taken hfree fun j hj => htaken _ (by omega) (by omega))

/-- The search ends in one way only. -/
theorem Search.unique (h : Search taken base candidate n name) (h' : Search taken base candidate n name') :
    name = name' := by
  induction h with
  | free hfree =>
    cases h' with
    | free => rfl
    | next htaken => exact absurd htaken hfree
  | next htaken _ ih =>
    cases h' with
    | free hfree => exact absurd htaken hfree
    | next _ hnext => exact ih hnext

/-- There is a constant for each member. -/
theorem length_uniqueFrom (taken members : List String) : (uniqueFrom taken members).length = members.length := by
  induction members generalizing taken with
  | nil => rfl
  | cons member rest ih => simp [uniqueFrom, ih]

/-- The constant of a member is chosen when those before it are taken. -/
theorem exists_chosen_of_getElem? {members : List String} {i : Nat} {member : String} (h : members[i]? = some member) :
    ∃ name, (uniqueFrom taken members)[i]? = some name ∧
      Chosen (((uniqueFrom taken members).take i).reverse ++ taken) (constant member) name := by
  induction members generalizing taken i with
  | nil => cases h
  | cons first rest ih =>
    cases i with
    | zero =>
      obtain rfl := Option.some.inj h
      exact ⟨_, rfl, chosen_freeName taken (constant first)⟩
    | succ i =>
      obtain ⟨name, hname, hchosen⟩ := @ih (freeName taken (constant first) :: taken) i h
      refine ⟨name, hname, ?_⟩
      rw [uniqueFrom, List.take_succ_cons, List.reverse_cons, List.append_assoc]
      exact hchosen

/-- No two members have one constant, and none has one that is taken before. -/
theorem nodup_uniqueFrom (taken members : List String) :
    (uniqueFrom taken members).Nodup ∧ ∀ name ∈ uniqueFrom taken members, name ∉ taken := by
  induction members generalizing taken with
  | nil => exact ⟨List.nodup_nil, nofun⟩
  | cons member rest ih =>
    obtain ⟨hnodup, hfree⟩ := ih (freeName taken (constant member) :: taken)
    refine ⟨List.nodup_cons.mpr ⟨fun hmem => hfree _ hmem List.mem_cons_self, hnodup⟩, ?_⟩
    refine List.forall_mem_cons.mpr ⟨(chosen_freeName taken (constant member)).notMem, fun name hname hmem => ?_⟩
    exact hfree name hname (List.mem_cons_of_mem _ hmem)

/-- The constants of members have legal names. -/
theorem mem_constantNames_of_mem_uniqueConstants {members : List String} (h : name ∈ uniqueConstants members) :
    name.toList ∈ constantNames := by
  obtain ⟨i, hi⟩ := List.mem_iff_getElem?.mp h
  have hlength := length_uniqueFrom [] members
  have hbound : i < members.length := by
    obtain ⟨hlt, -⟩ := List.getElem?_eq_some_iff.mp hi
    exact hlength ▸ hlt
  obtain ⟨name', hname', hchosen⟩ := @exists_chosen_of_getElem? [] _ _ _ (List.getElem?_eq_getElem hbound)
  obtain rfl : name = name' := Option.some.inj (hi.symm.trans hname')
  exact hchosen.mem_constantNames (constant_mem_constantNames _)

/-- There is one constant for each member. They are all different and have legal names. Each is the constant of its
member if none before it is the same, and otherwise that constant with the least number from 2 on that makes it
different from all before it; the search for it ends, and ends there. -/
theorem constants_legal_and_distinct (members : List String) :
    (uniqueConstants members).length = members.length ∧ (uniqueConstants members).Nodup ∧
      (∀ name ∈ uniqueConstants members, name.toList ∈ constantNames) ∧
      ∀ i member, members[i]? = some member → ∃ name, (uniqueConstants members)[i]? = some name ∧
        Chosen ((uniqueConstants members).take i) (constant member) name ∧
        ∀ found, Search ((uniqueConstants members).take i) (constant member) (constant member) 2 found ↔
          found = name := by
  refine ⟨length_uniqueFrom [] members, (nodup_uniqueFrom [] members).1,
    fun _ => mem_constantNames_of_mem_uniqueConstants, fun i member hmember => ?_⟩
  obtain ⟨name, hname, hchosen⟩ := @exists_chosen_of_getElem? [] _ _ _ hmember
  have htaken : Chosen ((uniqueConstants members).take i) (constant member) name :=
    hchosen.congr fun x => by rw [List.append_nil, List.mem_reverse]; rfl
  refine ⟨name, hname, htaken, fun found => ⟨fun hfound => hfound.unique htaken.search, ?_⟩⟩
  rintro rfl
  exact htaken.search

/-- The number that the second member has by itself is passed over for the third one. -/
theorem sweet_constants :
    uniqueConstants ["very sweet", "very_sweet_2", "verySweet"] = ["VERY_SWEET", "VERY_SWEET_2", "VERY_SWEET_3"] ∧
      Chosen ["VERY_SWEET", "VERY_SWEET_2"] "VERY_SWEET" "VERY_SWEET_3" ∧
      "VERY_SWEET_3".toList ∈ constantNames := by
  have hnames : uniqueConstants ["very sweet", "very_sweet_2", "verySweet"] =
      ["VERY_SWEET", "VERY_SWEET_2", "VERY_SWEET_3"] := by decide +kernel
  obtain ⟨-, -, hlegal, hchosen⟩ := constants_legal_and_distinct ["very sweet", "very_sweet_2", "verySweet"]
  obtain ⟨name, hname, hleast, -⟩ := hchosen 2 "verySweet" rfl
  rw [hnames] at hlegal hname hleast
  obtain rfl := Option.some.inj hname
  exact ⟨hnames, hleast, hlegal _ (by decide)⟩

end OntologyCompiler.Naming
