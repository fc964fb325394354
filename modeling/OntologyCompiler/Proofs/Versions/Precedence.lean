import OntologyCompiler.Proofs.Versions.Order
import OntologyCompiler.Text.Digits

/-!
# Precedence of versions

The rules by which semantic versions precede each other: numbers by size; a pre-release before its release; identifiers
from left to right, numbers by size and before words, words by their characters, and a proper start of a list before
the list. Build identifiers count last, and of those that write one number the one with fewer zeros in front comes first.
The comparison of versions never computes a number. It compares how many digits there are and then the digits, which
comes to the same for numbers without zeros in front, and the identifiers of a version that was read have none.
-/

namespace OntologyCompiler

namespace Version

/-- The number that an identifier writes. -/
def value (identifier : String) : Nat := Text.digitsValue 10 identifier.toList

/-- A pre-release identifier comes before another one. -/
inductive IdentifierPrecedes (a b : String) : Prop
  | number (ha : isNumeric a.toList = true) (hb : isNumeric b.toList = true) (h : value a < value b)
  | kind (ha : isNumeric a.toList = true) (hb : isNumeric b.toList = false)
  | word (ha : isNumeric a.toList = false) (hb : isNumeric b.toList = false) (h : a < b)

/-- A build identifier comes before another one. -/
inductive BuildPrecedes (a b : String) : Prop
  | number (ha : isNumeric a.toList = true) (hb : isNumeric b.toList = true) (h : value a < value b)
  | zeros (ha : isNumeric a.toList = true) (hb : isNumeric b.toList = true) (h : value a = value b)
    (hlength : a.length < b.length)
  | kind (ha : isNumeric a.toList = true) (hb : isNumeric b.toList = false)
  | word (ha : isNumeric a.toList = false) (hb : isNumeric b.toList = false) (h : a < b)

/-- The three numbers of a version. -/
def core (v : Version) : Nat × Nat × Nat := (v.major, v.minor, v.patch)

/-- A version comes before another one. -/
inductive Precedes (v w : Version) : Prop
  | major (h : v.major < w.major)
  | minor (h : v.major = w.major) (h' : v.minor < w.minor)
  | patch (h : v.major = w.major) (h' : v.minor = w.minor) (h'' : v.patch < w.patch)
  | release (h : v.core = w.core) (hv : v.preRelease ≠ []) (hw : w.preRelease = [])
  | preRelease (h : v.core = w.core) (hv : v.preRelease ≠ []) (hw : w.preRelease ≠ [])
    (h' : List.Lex IdentifierPrecedes v.preRelease w.preRelease)
  | build (h : v.core = w.core) (h' : v.preRelease = w.preRelease) (h'' : List.Lex BuildPrecedes v.build w.build)

/-- A pre-release identifier that a version may have: not empty, and no number with a zero in front. -/
structure IsProper (identifier : String) : Prop where
  ne_empty : identifier ≠ ""
  head : isNumeric identifier.toList = true → 1 < identifier.length → identifier.toList.head? ≠ some '0'

end Version

namespace Text

variable {x y : List Char} {c d : Char}

/-- A digit stands for a number below ten, and digits are in the order of these numbers. -/
theorem digitValue_lt_iff (hc : c.isDigit = true) (hd : d.isDigit = true) :
    digitValue c < 10 ∧ (digitValue c < digitValue d ↔ c < d) ∧ (digitValue c = digitValue d ↔ c = d) := by
  rw [digitValue, digitValue, if_pos hc, if_pos hd, Char.lt_def, UInt32.lt_iff_toNat_lt, ← Char.toNat_inj]
  simp only [Char.isDigit, Bool.and_eq_true, decide_eq_true_eq, ge_iff_le, UInt32.le_iff_toNat_le] at hc hd
  change 48 ≤ c.toNat ∧ c.toNat ≤ 57 at hc
  change 48 ≤ d.toNat ∧ d.toNat ≤ 57 at hd
  change c.toNat - 48 < 10 ∧ (c.toNat - 48 < d.toNat - 48 ↔ c.toNat < d.toNat) ∧ _
  omega

/-- The number that digits write behind the digits of another number. -/
def digitsAfter (n : Nat) (digits : List Char) : Nat := digits.foldl (fun n c => n * 10 + digitValue c) n

/-- Digits behind a number do not make it smaller. -/
theorem le_digitsAfter (n : Nat) (digits : List Char) : n ≤ digitsAfter n digits := by
  induction digits generalizing n with
  | nil => exact Nat.le_refl n
  | cons c digits ih =>
    have hstep := ih (n * 10 + digitValue c)
    change n ≤ digitsAfter (n * 10 + digitValue c) digits
    omega

variable (hx : ∀ c ∈ x, c.isDigit = true) (hy : ∀ c ∈ y, c.isDigit = true)

include hx hy

/-- Equally many digits write numbers in the order of the digits, unless the numbers in front of them decide. -/
theorem digitsAfter_lt_iff (hlength : x.length = y.length) (m n : Nat) :
    digitsAfter m x < digitsAfter n y ↔ m < n ∨ m = n ∧ x < y := by
  induction x generalizing y m n with
  | nil =>
    obtain rfl := List.length_eq_zero_iff.mp hlength.symm
    simp [digitsAfter]
  | cons c x ih =>
    cases y with
    | nil => cases hlength
    | cons d y =>
      obtain ⟨hc, hx⟩ := List.forall_mem_cons.mp hx
      obtain ⟨hd, hy⟩ := List.forall_mem_cons.mp hy
      obtain ⟨hc10, hlt, heq⟩ := digitValue_lt_iff hc hd
      have hd10 := (digitValue_lt_iff hd hc).1
      change digitsAfter (m * 10 + digitValue c) x < digitsAfter (n * 10 + digitValue d) y ↔ _
      have hless : m * 10 + digitValue c < n * 10 + digitValue d ↔ m < n ∨ m = n ∧ digitValue c < digitValue d := by
        omega
      have hsame : m * 10 + digitValue c = n * 10 + digitValue d ↔ m = n ∧ digitValue c = digitValue d := by
        omega
      rw [ih hx hy (Nat.succ.inj hlength), List.cons_lt_cons_iff, ← hlt, ← heq, hless, hsame, or_assoc, and_assoc,
        ← and_or_left]

/-- More digits write a greater number if the first of them is not zero. -/
theorem digitsValue_lt_of_length_lt (hlength : x.length < y.length) (hhead : y.head? ≠ some '0') :
    digitsValue 10 x < digitsValue 10 y := by
  obtain ⟨front, back, rfl, hback⟩ : ∃ front back, y = front ++ back ∧ x.length = back.length :=
    ⟨_, _, (List.take_append_drop (y.length - x.length) y).symm, by rw [List.length_drop]; omega⟩
  obtain ⟨hfront, hdigits⟩ := List.forall_mem_append.mp hy
  have hpositive : 0 < digitsAfter 0 front := by
    cases front with
    | nil => simp [hback] at hlength
    | cons c front =>
      have hc := hfront c List.mem_cons_self
      have hzero : ('0' : Char).isDigit = true := rfl
      have hne : digitValue '0' ≠ digitValue c := fun heq => hhead (by
        rw [(digitValue_lt_iff hzero hc).2.2.mp heq]
        rfl)
      have hstep := le_digitsAfter (0 * 10 + digitValue c) front
      change 0 < digitsAfter (0 * 10 + digitValue c) front
      change 0 ≠ digitValue c at hne
      omega
  rw [digitsValue, digitsValue, List.foldl_append]
  exact (digitsAfter_lt_iff hx hdigits hback 0 _).mpr (.inl hpositive)

/-- Numbers without zeros in front are in the order of their digits: first by how many there are. -/
theorem digitsValue_lt_iff (hzero : x.length < y.length → y.head? ≠ some '0')
    (hzero' : y.length < x.length → x.head? ≠ some '0') :
    digitsValue 10 x < digitsValue 10 y ↔ x.length < y.length ∨ x.length = y.length ∧ x < y := by
  rcases Nat.lt_trichotomy x.length y.length with hlt | heq | hgt
  · exact iff_of_true (digitsValue_lt_of_length_lt hx hy hlt (hzero hlt)) (.inl hlt)
  · have hvalues : digitsValue 10 x < digitsValue 10 y ↔ 0 < 0 ∨ 0 = 0 ∧ x < y := digitsAfter_lt_iff hx hy heq 0 0
    simpa [heq] using hvalues
  · have hless := digitsValue_lt_of_length_lt hy hx hgt (hzero' hgt)
    exact iff_of_false (by omega) (by omega)

/-- Numbers without zeros in front are equal exactly if their digits are. -/
theorem digitsValue_eq_iff (hzero : x.length < y.length → y.head? ≠ some '0')
    (hzero' : y.length < x.length → x.head? ≠ some '0') : digitsValue 10 x = digitsValue 10 y ↔ x = y := by
  refine ⟨fun h => ?_, fun h => h ▸ rfl⟩
  have hxy := mt (digitsValue_lt_iff hx hy hzero hzero').mpr (by omega)
  have hyx := mt (digitsValue_lt_iff hy hx hzero' hzero).mpr (by omega)
  rw [not_or] at hxy hyx
  have hlength : x.length = y.length := by omega
  exact List.le_antisymm (List.not_lt.mp fun h => hyx.2 ⟨hlength.symm, h⟩) (List.not_lt.mp fun h => hxy.2 ⟨hlength, h⟩)

end Text

namespace Version

variable {a b : String}

/-- A number has digits only. -/
theorem isNumeric_iff {segment : List Char} : isNumeric segment = true ↔ ∀ c ∈ segment, c.isDigit = true :=
  List.all_eq_true

/-- Strings are compared by their order. -/
theorem compare_eq_lt_iff : compare a b = .lt ↔ a < b := compareOfLessAndEq_eq_lt

/-- Pre-release identifiers are compared by precedence. -/
theorem compareIdentifier_eq_lt_iff (ha : IsProper a) (hb : IsProper b) :
    compareIdentifier a b = .lt ↔ IdentifierPrecedes a b := by
  unfold compareIdentifier
  cases hna : isNumeric a.toList <;> cases hnb : isNumeric b.toList <;> dsimp only
  · rw [compare_eq_lt_iff]
    refine ⟨.word hna hnb, fun h => ?_⟩
    cases h <;> simp_all
  · refine iff_of_false (by decide) fun h => ?_
    cases h <;> simp_all
  · exact iff_of_true rfl (.kind hna hnb)
  · have hpositive {s : String} (hs : s ≠ "") : 0 < s.length :=
      Nat.pos_of_ne_zero fun h => hs (String.length_eq_zero_iff.mp h)
    have hpa := hpositive ha.ne_empty
    have hpb := hpositive hb.ne_empty
    have hvalue : value a < value b ↔ a.length < b.length ∨ a.length = b.length ∧ a < b :=
      Text.digitsValue_lt_iff (isNumeric_iff.mp hna) (isNumeric_iff.mp hnb)
        (fun hlt : a.length < b.length => hb.head hnb (by omega))
        fun hlt : b.length < a.length => ha.head hna (by omega)
    rw [Ordering.then_eq_lt, Nat.compare_eq_lt, Nat.compare_eq_eq, compare_eq_lt_iff, ← hvalue]
    refine ⟨.number hna hnb, fun h => ?_⟩
    cases h <;> simp_all

/-- Zeros in front do not change a number. -/
theorem digitsValue_dropWhile (digits : List Char) :
    Text.digitsValue 10 (digits.dropWhile (· == '0')) = Text.digitsValue 10 digits := by
  induction digits with
  | nil => rfl
  | cons c digits ih =>
    by_cases hc : c = '0'
    · subst hc
      exact ih
    · rw [List.dropWhile_cons_of_neg (by simpa using hc)]

/-- The digits of a number behind the zeros in front. -/
def significantDigits (identifier : String) : List Char := identifier.toList.dropWhile (· == '0')

/-- Numbers are in the order of the digits that count. -/
theorem value_iff (ha : isNumeric a.toList = true) (hb : isNumeric b.toList = true) :
    (value a < value b ↔ (significantDigits a).length < (significantDigits b).length ∨
      (significantDigits a).length = (significantDigits b).length ∧ significantDigits a < significantDigits b) ∧
    (value a = value b ↔ significantDigits a = significantDigits b) := by
  have hhead (s : String) : (significantDigits s).head? ≠ some '0' := by
    intro h
    have hnot := List.head?_dropWhile_not (· == '0') s.toList
    rw [show s.toList.dropWhile (· == '0') = significantDigits s from rfl, h] at hnot
    cases hnot
  have hdigits {s : String} (hs : isNumeric s.toList = true) : ∀ c ∈ significantDigits s, c.isDigit = true :=
    fun c hc => isNumeric_iff.mp hs c ((List.dropWhile_suffix _).subset hc)
  rw [value, value, ← digitsValue_dropWhile a.toList, ← digitsValue_dropWhile b.toList]
  exact ⟨Text.digitsValue_lt_iff (hdigits ha) (hdigits hb) (fun _ => hhead b) fun _ => hhead a,
    Text.digitsValue_eq_iff (hdigits ha) (hdigits hb) (fun _ => hhead b) fun _ => hhead a⟩

/-- Build identifiers are compared by precedence. -/
theorem compareBuildIdentifier_eq_lt_iff : compareBuildIdentifier a b = .lt ↔ BuildPrecedes a b := by
  unfold compareBuildIdentifier
  cases hna : isNumeric a.toList <;> cases hnb : isNumeric b.toList <;> dsimp only
  · rw [compare_eq_lt_iff]
    refine ⟨.word hna hnb, fun h => ?_⟩
    cases h <;> simp_all
  · refine iff_of_false (by decide) fun h => ?_
    cases h <;> simp_all
  · exact iff_of_true rfl (.kind hna hnb)
  · obtain ⟨hless, hequal⟩ := value_iff hna hnb
    let x := significantDigits a
    let y := significantDigits b
    have hcompared : (compare (String.ofList x).length (String.ofList y).length).then
        ((compare (String.ofList x) (String.ofList y)).then (compare a.length b.length)) = .lt ↔
        value a < value b ∨ value a = value b ∧ a.length < b.length := by
      rw [Ordering.then_eq_lt, Ordering.then_eq_lt, Nat.compare_eq_lt, Nat.compare_eq_eq, compare_eq_lt_iff,
        Nat.compare_eq_lt, Std.compare_eq_iff_eq, String.length_ofList, String.length_ofList, String.ofList_inj,
        hless, hequal]
      change x.length < y.length ∨ x.length = y.length ∧
        ((String.ofList x).toList < (String.ofList y).toList ∨ x = y ∧ a.length < b.length) ↔ _
      rw [String.toList_ofList, String.toList_ofList]
      by_cases hxy : x = y
      · simp [hxy, x, y]
      · simp [hxy, x, y]
    refine hcompared.trans ⟨fun h => h.elim (.number hna hnb) fun h => .zeros hna hnb h.1 h.2, fun h => ?_⟩
    cases h <;> simp_all

/-- Segments are compared by precedence, from left to right. -/
theorem compareSegments_eq_lt_iff {cmp : String → String → Ordering} [Std.LawfulEqCmp cmp]
    {r : String → String → Prop} {as bs : List String} (h : ∀ a ∈ as, ∀ b ∈ bs, cmp a b = .lt ↔ r a b) :
    compareSegments cmp as bs = .lt ↔ List.Lex r as bs := by
  induction as generalizing bs with
  | nil =>
    cases bs with
    | nil => exact iff_of_false nofun nofun
    | cons b bs => exact iff_of_true rfl .nil
  | cons a as ih =>
    cases bs with
    | nil => exact iff_of_false nofun nofun
    | cons b bs =>
      have hrest := ih fun a ha b hb => h a (List.mem_cons_of_mem _ ha) b (List.mem_cons_of_mem _ hb)
      rw [compareSegments, Ordering.then_eq_lt, h a List.mem_cons_self b List.mem_cons_self,
        Std.LawfulEqCmp.compare_eq_iff_eq, hrest, List.cons_lex_cons_iff]

/-- A version whose pre-release identifiers are as a version may have them. -/
def HasProperIdentifiers (v : Version) : Prop := ∀ identifier ∈ v.preRelease, IsProper identifier

/-- Versions are compared by precedence. -/
theorem order_eq_lt_iff {v w : Version} (hv : v.HasProperIdentifiers) (hw : w.HasProperIdentifiers) :
    v.order w = .lt ↔ v.Precedes w := by
  have hidentifiers : compareSegments compareIdentifier v.preRelease w.preRelease = .lt ↔
      List.Lex IdentifierPrecedes v.preRelease w.preRelease :=
    compareSegments_eq_lt_iff fun a ha b hb => compareIdentifier_eq_lt_iff (hv a ha) (hw b hb)
  have hpre : comparePreRelease v.preRelease w.preRelease = .lt ↔ v.preRelease ≠ [] ∧ (w.preRelease = [] ∨
      w.preRelease ≠ [] ∧ List.Lex IdentifierPrecedes v.preRelease w.preRelease) := by
    rw [← hidentifiers]
    cases v.preRelease <;> cases w.preRelease <;> simp [comparePreRelease]
  have hbuild : compareSegments compareBuildIdentifier v.build w.build = .lt ↔
      List.Lex BuildPrecedes v.build w.build :=
    compareSegments_eq_lt_iff fun _ _ _ _ => compareBuildIdentifier_eq_lt_iff
  have hcore : v.core = w.core ↔ v.major = w.major ∧ v.minor = w.minor ∧ v.patch = w.patch := by
    simp [core]
  simp only [order, Ordering.then_eq_lt, Nat.compare_eq_lt, Std.LawfulEqCmp.compare_eq_iff_eq, hpre,
    hbuild]
  constructor
  · rintro (hmajor | ⟨hmajor, hminor | ⟨hminor, hpatch | ⟨hpatch, ⟨hne, hnone | ⟨hfilled, hlex⟩⟩ | ⟨hsame, hlex⟩⟩⟩⟩)
    · exact .major hmajor
    · exact .minor hmajor hminor
    · exact .patch hmajor hminor hpatch
    · exact .release (hcore.mpr ⟨hmajor, hminor, hpatch⟩) hne hnone
    · exact .preRelease (hcore.mpr ⟨hmajor, hminor, hpatch⟩) hne hfilled hlex
    · exact .build (hcore.mpr ⟨hmajor, hminor, hpatch⟩) hsame hlex
  · intro h
    cases h with
    | major h => exact .inl h
    | minor h h' => exact .inr ⟨h, .inl h'⟩
    | patch h h' h'' => exact .inr ⟨h, .inr ⟨h', .inl h''⟩⟩
    | release h hv hw =>
      obtain ⟨hmajor, hminor, hpatch⟩ := hcore.mp h
      exact .inr ⟨hmajor, .inr ⟨hminor, .inr ⟨hpatch, .inl ⟨hv, .inl hw⟩⟩⟩⟩
    | preRelease h hv hw h' =>
      obtain ⟨hmajor, hminor, hpatch⟩ := hcore.mp h
      exact .inr ⟨hmajor, .inr ⟨hminor, .inr ⟨hpatch, .inl ⟨hv, .inr ⟨hw, h'⟩⟩⟩⟩⟩
    | build h h' h'' =>
      obtain ⟨hmajor, hminor, hpatch⟩ := hcore.mp h
      exact .inr ⟨hmajor, .inr ⟨hminor, .inr ⟨hpatch, .inr ⟨h', h''⟩⟩⟩⟩

/-- Pre-release identifiers that are read are as a version may have them. -/
theorem isProper_of_scanIdentifiers {cs rest : List Char} {identifiers : List String}
    (h : scanIdentifiers .preRelease cs = .ok (identifiers, rest)) : ∀ identifier ∈ identifiers, IsProper identifier := by
  unfold scanIdentifiers at h
  dsimp only at h
  split at h
  next => cases h
  next hnone =>
    obtain ⟨rfl, -⟩ := Prod.mk.inj (Except.ok.inj h)
    refine List.forall_mem_map.mpr fun segment hsegment => ?_
    have hfault := List.findSome?_eq_none_iff.mp hnone segment hsegment
    unfold segmentFault? at hfault
    split at hfault
    next => cases hfault
    next hfilled =>
      split at hfault
      next => cases hfault
      next hzero =>
        refine ⟨by simpa using hfilled, fun hnumeric hlength => ?_⟩
        rw [String.toList_ofList] at hnumeric ⊢
        rw [String.length_ofList] at hlength
        exact fun hhead => hzero ⟨rfl, hnumeric, hlength, hhead⟩

/-- Pre-release identifiers behind their mark are as a version may have them, and so are none. -/
theorem isProper_of_scanMarked {mark : Char} {cs rest : List Char} {identifiers : Option (List String)}
    (h : scanMarked mark .preRelease cs = .ok (identifiers, rest)) :
    ∀ identifier ∈ identifiers.getD [], IsProper identifier := by
  cases cs with
  | nil =>
    cases h
    exact nofun
  | cons c cs =>
    rw [scanMarked] at h
    split at h
    · cases hscan : scanIdentifiers .preRelease cs with
      | error fault =>
        rw [hscan] at h
        cases h
      | ok parts =>
        rw [hscan] at h
        cases h
        exact isProper_of_scanIdentifiers hscan
    · cases h
      exact nofun

/-- A version that is read has identifiers as a version may have them. -/
theorem hasProperIdentifiers_of_parse {cs : List Char} {v : Version} (h : parse cs = .ok v) :
    v.HasProperIdentifiers := by
  have hbind {α β : Type} {x : Except VersionFault α} {f : α → Except VersionFault β} {b : β} :
      x >>= f = .ok b ↔ ∃ a, x = .ok a ∧ f a = .ok b := by
    cases x <;> simp [bind, Except.bind]
  unfold parse at h
  simp only [hbind] at h
  obtain ⟨⟨major, cs⟩, -, cs, -, ⟨minor, cs⟩, -, cs, -, ⟨patch, cs⟩, -, ⟨pre, cs⟩, hpre, ⟨build, cs⟩, -, h⟩ := h
  dsimp only at h
  split at h
  · cases h
    exact isProper_of_scanMarked hpre
  · cases h

end Version

namespace VersionLabel

/-- A label comes before another one: its version does, or the versions are equal and its text does. -/
def Precedes (a b : VersionLabel) : Prop :=
  a.version.Precedes b.version ∨ a.version = b.version ∧ a.label < b.label

/-- The version of a label that is read has identifiers as a version may have them. -/
theorem hasProperIdentifiers_of_parse {text : String} {a : VersionLabel} (h : parse text = .ok a) :
    a.version.HasProperIdentifiers := by
  unfold parse at h
  cases hparse : Version.parse (padded text.toList) with
  | error fault =>
    rw [hparse] at h
    cases h
  | ok version =>
    rw [hparse] at h
    cases h
    exact Version.hasProperIdentifiers_of_parse hparse

/-- Labels are compared by precedence. -/
theorem order_eq_lt_iff {a b : VersionLabel} (ha : a.version.HasProperIdentifiers)
    (hb : b.version.HasProperIdentifiers) : a.order b = .lt ↔ a.Precedes b := by
  rw [order, Ordering.then_eq_lt, Version.order_eq_lt_iff ha hb, Std.LawfulEqCmp.compare_eq_iff_eq,
    Version.compare_eq_lt_iff, Precedes]

end VersionLabel

end OntologyCompiler
