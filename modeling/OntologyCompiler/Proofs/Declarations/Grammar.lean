import Mathlib.Computability.Language
import OntologyCompiler.Proofs.Declarations.Types
import OntologyCompiler.Proofs.Files.Commutation
import OntologyCompiler.Proofs.Fingerprint.Legible

/-!
# The languages of names and types

Names, references and associations as sets of texts, put together from single characters by concatenation and
repetition. The recognisers cut a text into pieces instead, and accept exactly the texts of these sets: no name has a
dot, and no reference has a comma or a blank character, so a text is cut where one part of it ends and the next begins.
-/

namespace OntologyCompiler

/-- A repetition may be shifted by the first of its two factors. -/
theorem kstar_mul_shift {K : Type} [KleeneAlgebra K] (a b : K) :
    KStar.kstar (a * b) * a = a * KStar.kstar (b * a) := by
  apply le_antisymm
  · refine kstar_mul_le (le_mul_of_one_le_right' one_le_kstar) ?_
    rw [mul_assoc, ← mul_assoc b]
    exact mul_le_mul_right mul_kstar_le_kstar a
  · refine mul_kstar_le (le_mul_of_one_le_left' one_le_kstar) ?_
    rw [mul_assoc, ← mul_assoc a, ← mul_assoc]
    exact mul_le_mul_left kstar_mul_le_kstar a

namespace Text

open Computability

variable {separator : Char} {cs : List Char}

/-- Words without a separator, with separators between them, are the pieces of the text that they make. -/
theorem mem_separated_iff {l : Language Char} (hl : ∀ w ∈ l, separator ∉ w) :
    cs ∈ l * ({[separator]} * l)∗ ↔ ∀ piece ∈ pieces separator cs, piece ∈ l := by
  constructor
  · rintro ⟨first, hfirst, rest, ⟨parts, rfl, hparts⟩, rfl⟩
    dsimp only
    induction parts generalizing first with
    | nil =>
      rw [List.flatten_nil, List.append_nil, pieces_of_notMem (hl first hfirst)]
      exact List.forall_mem_singleton.mpr hfirst
    | cons part parts ih =>
      obtain ⟨hpart, hrest⟩ := List.forall_mem_cons.mp hparts
      obtain ⟨_, rfl, next, hnext, rfl⟩ := Language.mem_mul.mp hpart
      rw [List.flatten_cons, List.append_assoc, List.singleton_append, pieces_append,
        pieces_of_notMem (hl first hfirst), List.singleton_append]
      exact List.forall_mem_cons.mpr ⟨hfirst, ih next hnext hrest⟩
  · intro h
    -- the induction goes from separator to separator
    induction hlength : cs.length using Nat.strongRecOn generalizing cs with
    | ind n ih =>
      by_cases hmem : separator ∈ cs
      · obtain ⟨first, rest, rfl, hfirst⟩ := List.eq_append_cons_of_mem hmem
        rw [pieces_append, pieces_of_notMem hfirst, List.singleton_append, List.forall_mem_cons] at h
        obtain ⟨w, hw, _, ⟨parts, rfl, hparts⟩, heq⟩ := ih rest.length (by simp at hlength; omega) h.2 rfl
        refine ⟨first, h.1, _, ⟨(separator :: w) :: parts, rfl, ?_⟩, ?_⟩
        · exact List.forall_mem_cons.mpr ⟨⟨[separator], rfl, w, hw, rfl⟩, hparts⟩
        · rw [← heq]
          simp
      · rw [pieces_of_notMem hmem] at h
        exact ⟨cs, h cs List.mem_cons_self, [], Language.nil_mem_kstar _, List.append_nil cs⟩

/-- Blank characters around a text that has none at its ends are trimmed. -/
theorem trim_append {before after : List Char} (hbefore : ∀ c ∈ before, isBlank c = true)
    (hafter : ∀ c ∈ after, isBlank c = true) (hcs : EndsFilled cs) (hne : cs ≠ []) :
    trim (before ++ cs ++ after) = cs := by
  have hdrop (blanks rest : List Char) (hblanks : ∀ c ∈ blanks, isBlank c = true)
      (hrest : ∀ c ∈ rest.head?, isBlank c = false) : (blanks ++ rest).dropWhile isBlank = rest := by
    rw [List.dropWhile_append_of_pos hblanks]
    cases rest with
    | nil => rfl
    | cons c rest => simp [hrest c rfl]
  have hfront : ∀ c ∈ (cs ++ after).head?, isBlank c = false := by
    rw [List.head?_append_of_ne_nil _ hne]
    exact hcs.1
  have hback : ∀ c ∈ cs.reverse.head?, isBlank c = false := by
    rw [List.head?_reverse]
    exact hcs.2
  rw [trim, List.append_assoc, hdrop before _ hbefore hfront, List.reverse_append,
    hdrop after.reverse _ (fun c hc => hafter c (List.mem_reverse.mp hc)) hback, List.reverse_reverse]

/-- What trimming takes away is blank. -/
theorem exists_eq_append_trim (cs : List Char) : ∃ before after, cs = before ++ trim cs ++ after ∧
    (∀ c ∈ before, isBlank c = true) ∧ ∀ c ∈ after, isBlank c = true := by
  let rest := cs.dropWhile isBlank
  refine ⟨cs.takeWhile isBlank, (rest.reverse.takeWhile isBlank).reverse, ?_, ?_, ?_⟩
  · rw [trim, List.append_assoc, ← List.reverse_append, List.takeWhile_append_dropWhile, List.reverse_reverse,
      List.takeWhile_append_dropWhile]
  · exact fun c hc => List.mem_takeWhile_imp hc
  · exact fun c hc => List.mem_takeWhile_imp (List.mem_reverse.mp hc)

/-- The text in front of a final character. -/
theorem dropEnd?_eq_some_iff {last : Char} {rest : List Char} : dropEnd? last cs = some rest ↔ cs = rest ++ [last] := by
  constructor
  · intro h
    unfold dropEnd? at h
    split at h
    next => cases h
    next c before hreverse =>
      split at h
      next hc =>
        obtain rfl := Option.some.inj h
        rw [← hc, ← List.reverse_cons, ← hreverse, List.reverse_reverse]
      next => cases h
  · rintro rfl
    simp [dropEnd?]

end Text

/-- The text between the start of an association and its closing parenthesis. -/
theorem ValueType.linkedPart?_eq_some_iff {cs inner : List Char} :
    linkedPart? cs = some inner ↔ cs = linkedStart.toList ++ (inner ++ [')']) := by
  rw [linkedPart?, Option.bind_eq_some_iff]
  simp only [Text.dropEnd?_eq_some_iff]
  constructor
  · rintro ⟨_, hstart, rfl⟩
    exact Text.eq_append_of_dropStart? hstart
  · rintro rfl
    exact ⟨_, Text.dropStart?_append _ _, rfl⟩

namespace Grammar

open Computability

/-- A single character that passes a test. -/
def character (test : Char → Bool) : Language Char := {cs | ∃ c, test c = true ∧ cs = [c]}

/-- A given text. -/
def word (s : String) : Language Char := {s.toList}

/-- Any number of blank characters. -/
def blanks : Language Char := (character Text.isBlank)∗

/-- A lower case letter, then lower case letters, digits and underscores. -/
def names : Language Char := character isLowerLetter * (character isNameChar)∗

/-- Lower case letters and underscores, at least one of them. -/
def propertyNames : Language Char :=
  character (fun c => isLowerLetter c || c == '_') * (character fun c => isLowerLetter c || c == '_')∗

/-- Two names with a dot between them. -/
def references : Language Char := names * word "." * names

/-- `linked_to(`, then references with commas between them and blank characters around them, and `)` at the end. -/
def associations : Language Char :=
  word "linked_to(" * blanks * references * (blanks * word "," * blanks * references)∗ * blanks * word ")"

variable {cs : List Char} {s : String}

/-- Characters that all pass a test. -/
theorem mem_kstar_character {test : Char → Bool} : cs ∈ (character test)∗ ↔ ∀ c ∈ cs, test c = true := by
  constructor
  · rintro ⟨parts, rfl, hparts⟩ c hc
    obtain ⟨part, hpart, hc⟩ := List.mem_flatten.mp hc
    obtain ⟨d, hd, rfl⟩ := hparts part hpart
    exact List.mem_singleton.mp hc ▸ hd
  · intro h
    have hflatten : cs = (cs.map fun c => [c]).flatten := by
      induction cs with
      | nil => rfl
      | cons c cs ih => rw [List.map_cons, List.flatten_cons, ← ih (List.forall_mem_cons.mp h).2, List.singleton_append]
    exact ⟨_, hflatten, List.forall_mem_map.mpr fun c hc => ⟨c, h c hc, rfl⟩⟩

/-- Texts of names are recognised. -/
theorem mem_names_iff : cs ∈ names ↔ isNameChars cs = true := by
  rw [names, Language.mem_mul]
  constructor
  · rintro ⟨_, ⟨c, hc, rfl⟩, rest, hrest, rfl⟩
    exact Bool.and_eq_true_iff.mpr ⟨hc, List.all_eq_true.mpr (mem_kstar_character.mp hrest)⟩
  · intro h
    cases cs with
    | nil => cases h
    | cons c cs =>
      obtain ⟨hc, hcs⟩ := Bool.and_eq_true_iff.mp h
      exact ⟨[c], ⟨c, hc, rfl⟩, cs, mem_kstar_character.mpr (List.all_eq_true.mp hcs), rfl⟩

/-- Names of properties are recognised. -/
theorem mem_propertyNames_iff : s.toList ∈ propertyNames ↔ isPropertyName s = true := by
  rw [isPropertyName, propertyNames, Language.mem_mul]
  generalize s.toList = cs
  constructor
  · rintro ⟨_, ⟨c, hc, rfl⟩, rest, hrest, rfl⟩
    exact Bool.and_eq_true_iff.mpr ⟨rfl, List.all_eq_true.mpr
      (List.forall_mem_cons.mpr ⟨hc, mem_kstar_character.mp hrest⟩)⟩
  · intro h
    obtain ⟨hne, hall⟩ := Bool.and_eq_true_iff.mp h
    cases cs with
    | nil => cases hne
    | cons c cs =>
      obtain ⟨hc, hcs⟩ := List.forall_mem_cons.mp (List.all_eq_true.mp hall)
      exact ⟨[c], ⟨c, hc, rfl⟩, cs, mem_kstar_character.mpr hcs, rfl⟩

/-- A reference is a name, a dot and a name. -/
theorem mem_references : cs ∈ references ↔ ∃ package ∈ names, ∃ typeName ∈ names, package ++ '.' :: typeName = cs := by
  have hmark (package : List Char) : package ∈ names * word "." ↔ ∃ front ∈ names, front ++ ['.'] = package := by
    rw [Language.mem_mul]
    constructor
    · rintro ⟨front, hfront, _, rfl, rfl⟩
      exact ⟨front, hfront, rfl⟩
    · rintro ⟨front, hfront, rfl⟩
      exact ⟨front, hfront, _, rfl, rfl⟩
  rw [references, Language.mem_mul]
  simp only [hmark, exists_exists_and_eq_and, List.append_assoc, List.singleton_append]

/-- References are recognised, since no name has a dot. -/
theorem mem_references_iff : cs ∈ references ↔ isQualifiedChars cs = true := by
  rw [mem_references, isQualifiedChars]
  simp only [mem_names_iff]
  constructor
  · rintro ⟨package, hpackage, typeName, hname, rfl⟩
    have hdot : '.' ∉ package := fun hmem => absurd (forall_of_isNameChars hpackage _ hmem) (by decide)
    simp only [Text.cut?_append hdot, hpackage, hname, Bool.and_self]
  · intro h
    split at h
    next => cases h
    next package typeName hcut =>
      obtain ⟨hpackage, hname⟩ := Bool.and_eq_true_iff.mp h
      exact ⟨package, hpackage, typeName, hname, (Text.eq_append_of_cut? hcut).symm⟩

/-- A reference between blank characters. -/
theorem mem_padded : cs ∈ blanks * references * blanks ↔ ∃ before reference after,
    (∀ c ∈ before, Text.isBlank c = true) ∧ isQualifiedChars reference = true ∧
      (∀ c ∈ after, Text.isBlank c = true) ∧ before ++ reference ++ after = cs := by
  simp only [blanks, Language.mem_mul, mem_kstar_character, mem_references_iff]
  constructor
  · rintro ⟨_, ⟨before, hbefore, reference, hreference, rfl⟩, after, hafter, rfl⟩
    exact ⟨before, reference, after, hbefore, hreference, hafter, rfl⟩
  · rintro ⟨before, reference, after, hbefore, hreference, hafter, rfl⟩
    exact ⟨_, ⟨before, hbefore, reference, hreference, rfl⟩, after, hafter, rfl⟩

/-- A reference between blank characters is recognised when it is trimmed. -/
theorem mem_padded_iff : cs ∈ blanks * references * blanks ↔ isQualifiedChars (Text.trim cs) = true := by
  rw [mem_padded]
  constructor
  · rintro ⟨before, reference, after, hbefore, hreference, hafter, rfl⟩
    have hne : reference ≠ [] := by
      rintro rfl
      cases hreference
    have hfilled := Text.endsFilled_of_forall (forall_of_isQualifiedChars hreference)
    rwa [Text.trim_append hbefore hafter hfilled hne]
  · intro h
    obtain ⟨before, after, heq, hbefore, hafter⟩ := Text.exists_eq_append_trim cs
    exact ⟨before, _, after, hbefore, h, hafter, heq.symm⟩

/-- There is no comma in a reference between blank characters. -/
theorem comma_notMem_padded : ∀ w ∈ blanks * references * blanks, ',' ∉ w := by
  intro w hw
  obtain ⟨before, reference, after, hbefore, hreference, hafter, rfl⟩ := mem_padded.mp hw
  have hplain : Plain (String.ofList reference) := plain_of_isQualifiedName (by rwa [isQualifiedName, String.toList_ofList])
  have hcomma := hplain.notMem (show isReferenceChar ',' = false by decide)
  rw [String.toList_ofList] at hcomma
  simp only [List.mem_append, not_or]
  exact ⟨⟨fun hmem => absurd (hbefore _ hmem) (by decide), hcomma⟩, fun hmem => absurd (hafter _ hmem) (by decide)⟩

/-- What stands between the parentheses of an association are references between blank characters, with commas between
them. -/
theorem associations_eq : associations =
    word "linked_to(" * (blanks * references * blanks * (word "," * (blanks * references * blanks))∗) * word ")" := by
  have hshift := congrArg (· * word ")") (kstar_mul_shift blanks (word "," * blanks * references))
  simp only [mul_assoc] at hshift
  simp only [associations, mul_assoc]
  rw [hshift]

/-- In an association what stands between the parentheses has its start in front and the closing one behind. -/
theorem mem_associations : cs ∈ associations ↔
    ∃ inner ∈ blanks * references * blanks * (word "," * (blanks * references * blanks))∗,
      cs = ValueType.linkedStart.toList ++ (inner ++ [')']) := by
  rw [associations_eq]
  constructor
  · intro h
    obtain ⟨_, hfront, _, rfl, rfl⟩ := Language.mem_mul.mp h
    obtain ⟨_, rfl, inner, hmem, rfl⟩ := Language.mem_mul.mp hfront
    exact ⟨inner, hmem, List.append_assoc _ _ _⟩
  · intro h
    obtain ⟨inner, hmem, rfl⟩ := h
    rw [← List.append_assoc]
    exact Language.append_mem_mul (Language.append_mem_mul rfl hmem) rfl

/-- Associations are recognised, since no reference has a comma or a blank character. -/
theorem mem_associations_iff : s.toList ∈ associations ↔ isLinkedType s = true := by
  have hinner (inner : List Char) : inner ∈ blanks * references * blanks * (word "," * (blanks * references * blanks))∗ ↔
      ((Text.pieces ',' inner).all fun part => isQualifiedChars (Text.trim part)) = true := by
    rw [List.all_eq_true]
    simp only [← mem_padded_iff]
    exact Text.mem_separated_iff comma_notMem_padded
  rw [mem_associations, isLinkedType]
  constructor
  · intro h
    obtain ⟨inner, hmem, heq⟩ := h
    rw [ValueType.linkedPart?_eq_some_iff.mpr heq]
    exact (hinner inner).mp hmem
  · intro h
    split at h
    next => cases h
    next inner hpart => exact ⟨inner, (hinner inner).mpr h, ValueType.linkedPart?_eq_some_iff.mp hpart⟩

/-- Blanks may stand around every reference, but a reference must follow a comma. -/
example : isLinkedType "linked_to( pier.boat,\treef.hull )" = true ∧ isLinkedType "linked_to(pier.boat,)" = false := by
  decide +kernel

/-- A text that a type may have: a keyword, a reference or an association. -/
def IsType (s : String) : Prop :=
  (∃ kind : ScalarKind, s = kind.keyword) ∨ s.toList ∈ references ∨ s.toList ∈ associations

end Grammar

/-- A keyword is a bare word. -/
theorem ScalarKind.isBareWord_keyword (kind : ScalarKind) : Grammar.isBareWord kind.keyword = true := by
  cases kind <;> decide

/-- No character of a name opens a parenthesis, so nothing made of names starts as an association does. -/
theorem ValueType.dropStart?_linkedStart_of_plain {s : String} (h : Grammar.Plain s) :
    Text.dropStart? linkedStart.toList s.toList = none := by
  cases hstart : Text.dropStart? linkedStart.toList s.toList with
  | none => rfl
  | some rest =>
    have hparenthesis : '(' ∈ s.toList := by
      rw [Text.eq_append_of_dropStart? hstart]
      exact List.mem_append_left _ (by decide)
    exact absurd hparenthesis (h.notMem (by decide))

/-- The text of a type has no problem exactly if it is a keyword, a reference or an association. -/
theorem Validation.typeProblem?_eq_none_iff {s : String} : typeProblem? s = none ↔ Grammar.IsType s := by
  rw [Grammar.IsType, Grammar.mem_references_iff, Grammar.mem_associations_iff]
  change _ ↔ _ ∨ Grammar.isQualifiedName s = true ∨ _
  have hlinked : Grammar.isLinkedType s = true → (Text.dropStart? ValueType.linkedStart.toList s.toList).isSome = true := by
    intro h
    unfold Grammar.isLinkedType at h
    split at h
    next => cases h
    next inner hpart => rw [ValueType.linkedPart?_eq_some_iff.mp hpart, Text.dropStart?_append]; rfl
  unfold typeProblem?
  by_cases hstart : (Text.dropStart? ValueType.linkedStart.toList s.toList).isSome = true
  · have hplain : ¬ Grammar.Plain s := by
      intro h
      rw [ValueType.dropStart?_linkedStart_of_plain h] at hstart
      cases hstart
    have hkeyword : ¬ ∃ kind : ScalarKind, s = kind.keyword := by
      rintro ⟨kind, rfl⟩
      exact hplain (Grammar.plain_keyword kind)
    simp [hstart, hkeyword, mt Grammar.plain_of_isQualifiedName hplain]
  · have hword : (∃ kind : ScalarKind, s = kind.keyword) ↔
        Grammar.isBareWord s = true ∧ (ScalarKind.ofKeyword? s).isSome = true := by
      simp only [Option.isSome_iff_exists, ScalarKind.ofKeyword?_eq_some_iff]
      refine ⟨?_, And.right⟩
      rintro ⟨kind, rfl⟩
      exact ⟨kind.isBareWord_keyword, kind, rfl⟩
    rw [if_neg hstart, hword, iff_false_intro (mt hlinked hstart), or_false]
    by_cases hqualified : Grammar.isQualifiedName s = true
    · simp [hqualified]
    · by_cases hbare : Grammar.isBareWord s = true
      · simp [hqualified, hbare, Option.isSome_iff_ne_none]
      · simp [hqualified, hbare]

end OntologyCompiler
