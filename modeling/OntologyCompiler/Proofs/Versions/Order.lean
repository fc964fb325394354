import Mathlib.Data.List.TakeWhile
import OntologyCompiler.Version.Label

/-!
# The order of versions is total

Versions are compared part by part, and each part by keys that have a total order: numbers by size, identifiers first by
their kind, then numbers by their digits and words by their characters. So the order of versions is transitive, of two
versions one comes first, and only equal versions are equal in it. The order of labels asks for the text where versions
are equal, and is total for the same reason.
-/

namespace OntologyCompiler

section Keys

variable {α κ : Type} {cmp cmp' : α → α → Ordering}

/-- Comparing by a key is transitive if comparing keys is. -/
theorem transCmp_key (order : κ → κ → Ordering) [Std.TransCmp order] (key : α → κ) :
    Std.TransCmp fun a b => order (key a) (key b) where
  eq_swap := Std.OrientedCmp.eq_swap
  isLE_trans := Std.TransCmp.isLE_trans

/-- In two comparisons one after the other only equal things are equal, if things equal in both are. -/
theorem lawfulEqCmp_compareLex [Std.TransCmp cmp] [Std.TransCmp cmp']
    (h : ∀ a b, cmp a b = .eq → cmp' a b = .eq → a = b) : Std.LawfulEqCmp (compareLex cmp cmp') where
  eq_of_compare heq := by
    obtain ⟨hfirst, hsecond⟩ := compareLex_eq_eq.mp heq
    exact h _ _ hfirst hsecond

end Keys

namespace Version

/-- Numbers come before words. -/
def kind (identifier : String) : Nat := if isNumeric identifier.toList then 0 else 1

/-- The number of digits of a number. -/
def width (identifier : String) : Nat := if isNumeric identifier.toList then identifier.length else 0

/-- A number without zeros in front, or a word. -/
def significant (identifier : String) : String :=
  if isNumeric identifier.toList then String.ofList (identifier.toList.dropWhile (· == '0')) else identifier

/-- The number of digits of a number without zeros in front. -/
def significantWidth (identifier : String) : Nat :=
  if isNumeric identifier.toList then (significant identifier).length else 0

/-- Identifiers are compared by kind, number of digits and text. -/
theorem compareIdentifier_eq :
    compareIdentifier = compareLex (compareOn kind) (compareLex (compareOn width) compare) := by
  funext a b
  simp only [compareIdentifier, compareLex, compareOn, kind, width]
  cases isNumeric a.toList <;> cases isNumeric b.toList <;> rfl

/-- Build identifiers are compared by kind, number of digits that count, text, and number of digits. -/
theorem compareBuildIdentifier_eq : compareBuildIdentifier = compareLex (compareOn kind)
    (compareLex (compareOn significantWidth) (compareLex (compareOn significant) (compareOn String.length))) := by
  funext a b
  simp only [compareBuildIdentifier, compareLex, compareOn, kind, significantWidth, significant]
  cases isNumeric a.toList <;> cases isNumeric b.toList
  · -- Equal words have equal lengths, so asking for lengths last changes nothing.
    cases hab : compare a b with
    | eq => simp [Std.LawfulEqOrd.eq_of_compare hab]
    | lt => simp [hab]
    | gt => simp [hab]
  · rfl
  · rfl
  · rfl

/-- Segments are compared in lexicographic order. -/
theorem compareSegments_eq (cmp : String → String → Ordering) : compareSegments cmp = List.compareLex cmp := by
  funext as bs
  induction as generalizing bs with
  | nil => cases bs <;> rfl
  | cons a as ih =>
    cases bs with
    | nil => rfl
    | cons b bs => rw [compareSegments, List.compareLex_cons_cons, ih]

/-- Pre-release parts are compared by whether they are there, and then segment by segment. -/
theorem comparePreRelease_eq : comparePreRelease =
    compareLex (compareOn fun segments => if segments.isEmpty then 1 else 0) (compareSegments compareIdentifier) := by
  funext as bs
  cases as <;> cases bs <;> rfl

/-- Versions are compared part by part. -/
theorem order_eq : order = compareLex (compareOn major) (compareLex (compareOn minor) (compareLex (compareOn patch)
    (compareLex (fun v w => comparePreRelease v.preRelease w.preRelease)
      fun v w => compareSegments compareBuildIdentifier v.build w.build))) := rfl

instance : Std.TransCmp compareIdentifier := by
  rw [compareIdentifier_eq]
  infer_instance

instance : Std.TransCmp compareBuildIdentifier := by
  rw [compareBuildIdentifier_eq]
  infer_instance

instance (cmp : String → String → Ordering) [Std.TransCmp cmp] : Std.TransCmp (compareSegments cmp) := by
  rw [compareSegments_eq]
  infer_instance

instance : Std.TransCmp comparePreRelease := by
  rw [comparePreRelease_eq]
  infer_instance

/-- The order of versions is transitive, and of two versions one comes first. -/
instance : Std.TransCmp order := by
  have := transCmp_key comparePreRelease preRelease
  have := transCmp_key (compareSegments compareBuildIdentifier) build
  rw [order_eq]
  infer_instance

instance : Std.LawfulEqCmp compareIdentifier := by
  rw [compareIdentifier_eq]
  refine lawfulEqCmp_compareLex fun a b _ hrest => ?_
  exact Std.LawfulEqOrd.eq_of_compare (compareLex_eq_eq.mp hrest).2

/-- A number is told by its digits that count and the number of its digits. -/
theorem eq_of_significant_eq {a b : String} (hkind : kind a = kind b) (hsignificant : significant a = significant b)
    (hlength : a.length = b.length) : a = b := by
  unfold kind at hkind
  unfold significant at hsignificant
  cases ha : isNumeric a.toList <;> cases hb : isNumeric b.toList <;>
    simp only [ha, hb, if_true, if_false, Bool.false_eq_true] at hkind hsignificant
  · exact hsignificant
  · cases hkind
  · cases hkind
  · -- Both are zeros with the same digits behind them.
    have hzeros (s : String) : s.toList = List.replicate (s.toList.takeWhile (· == '0')).length '0' ++
        s.toList.dropWhile (· == '0') := by
      have hsame : s.toList.takeWhile (· == '0') = List.replicate _ '0' :=
        List.eq_replicate_of_mem fun c hc => by simpa using List.mem_takeWhile_imp hc
      rw [← hsame, List.takeWhile_append_dropWhile]
    have hdrop := String.ofList_injective hsignificant
    have hcount : (a.toList.takeWhile (· == '0')).length = (b.toList.takeWhile (· == '0')).length := by
      have hlengths : a.toList.length = b.toList.length := hlength
      rw [hzeros a, hzeros b, List.length_append, List.length_append, List.length_replicate, List.length_replicate,
        hdrop] at hlengths
      omega
    apply String.toList_injective
    rw [hzeros a, hzeros b, hdrop, hcount]

instance : Std.LawfulEqCmp compareBuildIdentifier := by
  rw [compareBuildIdentifier_eq]
  refine lawfulEqCmp_compareLex fun a b hkind hrest => ?_
  obtain ⟨-, hrest⟩ := compareLex_eq_eq.mp hrest
  obtain ⟨hsignificant, hlength⟩ := compareLex_eq_eq.mp hrest
  exact eq_of_significant_eq (Std.LawfulEqOrd.eq_of_compare hkind) (Std.LawfulEqOrd.eq_of_compare hsignificant)
    (Std.LawfulEqOrd.eq_of_compare hlength)

instance (cmp : String → String → Ordering) [Std.LawfulEqCmp cmp] : Std.LawfulEqCmp (compareSegments cmp) := by
  rw [compareSegments_eq]
  infer_instance

instance : Std.LawfulEqCmp comparePreRelease := by
  rw [comparePreRelease_eq]
  exact lawfulEqCmp_compareLex fun _ _ _ hrest => Std.LawfulEqCmp.eq_of_compare hrest

/-- Only equal versions are equal in the order of versions. -/
instance : Std.LawfulEqCmp order where
  compare_self := Std.ReflCmp.compare_self
  eq_of_compare {v w} h := by
    rw [order_eq] at h
    obtain ⟨hmajor, h⟩ := compareLex_eq_eq.mp h
    obtain ⟨hminor, h⟩ := compareLex_eq_eq.mp h
    obtain ⟨hpatch, h⟩ := compareLex_eq_eq.mp h
    obtain ⟨hpre, hbuild⟩ := compareLex_eq_eq.mp h
    cases v
    cases w
    simp only [mk.injEq]
    exact ⟨Std.LawfulEqOrd.eq_of_compare hmajor, Std.LawfulEqOrd.eq_of_compare hminor,
      Std.LawfulEqOrd.eq_of_compare hpatch, Std.LawfulEqCmp.eq_of_compare hpre, Std.LawfulEqCmp.eq_of_compare hbuild⟩

end Version

namespace VersionLabel

/-- Labels are compared by version and then by text. -/
theorem order_eq : order = compareLex (fun a b => a.version.order b.version) (compareOn label) := rfl

/-- The order of labels is transitive, and of two labels one comes first. -/
instance : Std.TransCmp order := by
  have := transCmp_key Version.order version
  rw [order_eq]
  infer_instance

/-- Only equal labels are equal in the order of labels. -/
instance : Std.LawfulEqCmp order where
  compare_self := Std.ReflCmp.compare_self
  eq_of_compare {a b} h := by
    rw [order_eq] at h
    obtain ⟨hversion, hlabel⟩ := compareLex_eq_eq.mp h
    cases a
    cases b
    simp only [mk.injEq]
    exact ⟨Std.LawfulEqCmp.eq_of_compare hversion, Std.LawfulEqOrd.eq_of_compare hlabel⟩

end VersionLabel

end OntologyCompiler
