import Mathlib.Data.List.Basic
import Mathlib.Data.List.TakeWhile
import OntologyCompiler.Json.Text
import OntologyCompiler.Text.Digits

/-!
# Numbers in Python

The texts that Python reads as a number: digits, perhaps with a fraction and an exponent behind them, and a minus sign in
front. An integer has no zero in front of other digits, while zeros may stand in front of a fraction. Every number of
JSON is written as such a text, also where it has been scaled by zeros or has an exponent.
-/

namespace OntologyCompiler

namespace Literal

/-- Nothing, or an exponent. -/
def isScale : List Char → Bool
  | [] => true
  | c :: cs => (c == 'e' || c == 'E') &&
    match cs with
    | '-' :: digits => Text.areDigits digits
    | '+' :: digits => Text.areDigits digits
    | digits => Text.areDigits digits

/-- What may follow the digits in front: nothing behind an integer, or a fraction, an exponent or both. -/
def isRemainder (whole : List Char) : List Char → Bool
  | [] => whole == ['0'] || whole.head? != some '0'
  | '.' :: cs => isScale (cs.dropWhile Char.isDigit)
  | cs => isScale cs

/-- A number without a sign. -/
def isMagnitude (cs : List Char) : Bool :=
  let whole := cs.takeWhile Char.isDigit
  !whole.isEmpty && isRemainder whole (cs.dropWhile Char.isDigit)

/-- A number. -/
def isNumber : List Char → Bool
  | '-' :: cs => isMagnitude cs
  | cs => isMagnitude cs

/-- A character of numbers. -/
def isNumberChar (c : Char) : Bool := c.isDigit || c == '.' || c == 'e' || c == 'E' || c == '+' || c == '-'

variable {cs digits whole rest : List Char} {c : Char}

/-- Digits are characters of numbers. -/
theorem isNumberChar_of_isDigit (h : c.isDigit = true) : isNumberChar c = true := by
  simp [isNumberChar, h]

/-- Digits are digits all through. -/
theorem areDigits_iff : Text.areDigits digits = true ↔ digits ≠ [] ∧ ∀ c ∈ digits, c.isDigit = true := by
  simp [Text.areDigits]

/-- An exponent has the characters of numbers. -/
theorem isNumberChar_of_isScale (h : isScale cs = true) : ∀ c ∈ cs, isNumberChar c = true := by
  have hdigits {digits : List Char} (hd : Text.areDigits digits = true) : ∀ c ∈ digits, isNumberChar c = true :=
    fun c hc => isNumberChar_of_isDigit ((areDigits_iff.mp hd).2 c hc)
  cases cs with
  | nil => exact nofun
  | cons c cs =>
    obtain ⟨hc, hrest⟩ := Bool.and_eq_true_iff.mp h
    refine List.forall_mem_cons.mpr ⟨?_, ?_⟩
    · rcases Bool.or_eq_true_iff.mp hc with hletter | hletter <;> simp [isNumberChar, hletter]
    · split at hrest
      · exact List.forall_mem_cons.mpr ⟨rfl, hdigits hrest⟩
      · exact List.forall_mem_cons.mpr ⟨rfl, hdigits hrest⟩
      · exact hdigits hrest

/-- A number without a sign has the characters of numbers. -/
theorem isNumberChar_of_isMagnitude (h : isMagnitude cs = true) : ∀ c ∈ cs, isNumberChar c = true := by
  have hwhole (cs : List Char) : ∀ c ∈ cs.takeWhile Char.isDigit, isNumberChar c = true :=
    fun c hc => isNumberChar_of_isDigit (List.mem_takeWhile_imp hc)
  have hremainder := (Bool.and_eq_true_iff.mp h).2
  rw [← List.takeWhile_append_dropWhile (p := Char.isDigit) (l := cs)]
  refine List.forall_mem_append.mpr ⟨hwhole cs, ?_⟩
  generalize cs.dropWhile Char.isDigit = rest at hremainder
  unfold isRemainder at hremainder
  split at hremainder
  · exact nofun
  next fraction =>
    refine List.forall_mem_cons.mpr ⟨rfl, ?_⟩
    rw [← List.takeWhile_append_dropWhile (p := Char.isDigit) (l := fraction)]
    exact List.forall_mem_append.mpr ⟨hwhole fraction, isNumberChar_of_isScale hremainder⟩
  · exact isNumberChar_of_isScale hremainder

/-- A number has the characters of numbers. -/
theorem isNumberChar_of_isNumber (h : isNumber cs = true) : ∀ c ∈ cs, isNumberChar c = true := by
  unfold isNumber at h
  split at h
  · exact List.forall_mem_cons.mpr ⟨rfl, isNumberChar_of_isMagnitude h⟩
  · exact isNumberChar_of_isMagnitude h

/-- The digits in front of a number end where no digit follows. -/
theorem isMagnitude_append (hne : whole ≠ []) (hwhole : ∀ c ∈ whole, c.isDigit = true)
    (hrest : ∀ c ∈ rest.head?, c.isDigit = false) : isMagnitude (whole ++ rest) = isRemainder whole rest := by
  have htake : rest.takeWhile Char.isDigit = [] ∧ rest.dropWhile Char.isDigit = rest := by
    cases rest with
    | nil => exact ⟨rfl, rfl⟩
    | cons c rest => simp [hrest c rfl]
  rw [isMagnitude, List.takeWhile_append_of_pos hwhole, List.dropWhile_append_of_pos hwhole, htake.1, htake.2,
    List.append_nil]
  simp [hne]

/-- Digits with a fraction are a number. -/
theorem isMagnitude_fraction (hne : whole ≠ []) (hwhole : ∀ c ∈ whole, c.isDigit = true)
    (hdigits : ∀ c ∈ digits, c.isDigit = true) (hscale : isScale rest = true)
    (hrest : ∀ c ∈ rest.head?, c.isDigit = false) : isMagnitude (whole ++ '.' :: (digits ++ rest)) = true := by
  have hdrop : rest.dropWhile Char.isDigit = rest := by
    cases rest with
    | nil => rfl
    | cons c rest => simp [hrest c rfl]
  have hpoint : ∀ c ∈ ('.' :: (digits ++ rest)).head?, c.isDigit = false := by
    intro c hc
    obtain rfl := Option.some.inj hc
    rfl
  rw [isMagnitude_append hne hwhole hpoint, isRemainder, List.dropWhile_append_of_pos hdigits, hdrop, hscale]

/-- A number without a sign does not start with one. -/
theorem isNumber_of_isMagnitude (h : isMagnitude cs = true) : isNumber cs = true ∧ isNumber ('-' :: cs) = true := by
  refine ⟨?_, h⟩
  unfold isNumber
  split
  next rest => cases h
  next => exact h

end Literal

/-- The digits of a natural number are digits. -/
theorem Text.isDigit_of_mem_repr (n : Nat) : ∀ c ∈ n.repr.toList, c.isDigit = true := by
  rw [Nat.toList_repr]
  exact fun c hc => Nat.isDigit_of_mem_toDigits (by decide) (by decide) hc

/-- There is a digit in every natural number. -/
theorem Text.toList_repr_ne_nil (n : Nat) : n.repr.toList ≠ [] := by
  rw [Nat.toList_repr]
  exact Nat.toDigits_ne_nil

/-- Only zero starts with the digit zero. -/
theorem Text.head?_repr_ne_zero {n : Nat} (h : n ≠ 0) : n.repr.toList.head? ≠ some '0' := by
  rw [Nat.toList_repr]
  induction n using Nat.strongRecOn with
  | ind n ih =>
    rcases Nat.lt_or_ge n 10 with hlt | hge
    · rw [Nat.toDigits_of_lt_base hlt]
      simpa using h
    · rw [Nat.toDigits_of_base_le (by decide) hge, List.head?_append_of_ne_nil _ Nat.toDigits_ne_nil]
      exact ih (n / 10) (by omega) (by omega)

open Literal

/-- An integer is written as a number. -/
theorem Text.isMagnitude_repr (n : Nat) : isMagnitude n.repr.toList = true := by
  have happend : isMagnitude (n.repr.toList ++ []) = isRemainder n.repr.toList [] :=
    isMagnitude_append (toList_repr_ne_nil n) (isDigit_of_mem_repr n) nofun
  rw [List.append_nil] at happend
  rw [happend, isRemainder, Bool.or_eq_true]
  by_cases hn : n = 0
  · subst hn
    exact .inl rfl
  · exact .inr (bne_iff_ne.mpr (head?_repr_ne_zero hn))

namespace Decimal

/-- The positional notation is a number: its fraction is one of its own, or that of an integral number. -/
theorem isMagnitude_positional (d : Decimal) : isMagnitude (d.positional ".0").toList = true := by
  have hdigits : ∀ c ∈ d.digitText.toList, c.isDigit = true := Text.isDigit_of_mem_repr _
  have hne : d.digitText.toList ≠ [] := Text.toList_repr_ne_nil _
  have hpoint {whole fraction : List Char} (hwhole : whole ≠ []) (hw : ∀ c ∈ whole, c.isDigit = true)
      (hf : ∀ c ∈ fraction, c.isDigit = true) : isMagnitude (whole ++ '.' :: fraction) = true := by
    rw [← List.append_nil fraction]
    exact isMagnitude_fraction hwhole hw hf rfl nofun
  have hzeros (n : Nat) : ∀ c ∈ (zeros n).toList, c.isDigit = true := by
    rw [zeros, String.toList_ofList]
    exact fun c hc => List.eq_of_mem_replicate hc ▸ rfl
  have hdot : ".".toList = ['.'] := rfl
  have hinteger : ".0".toList = ['.', '0'] := rfl
  have hsmall : "0.".toList = ['0', '.'] := rfl
  unfold positional
  dsimp only
  split
  next =>
    simp only [String.toList_append, String.toList_ofList, hinteger]
    exact hpoint (by simp [hne]) (List.forall_mem_append.mpr ⟨hdigits, hzeros _⟩) (List.forall_mem_singleton.mpr rfl)
  next =>
    split
    next hposition =>
      simp only [String.toList_append, String.toList_ofList, hdot, List.append_assoc, List.cons_append, List.nil_append]
      have hwhole : d.digitText.toList.take d.pointPosition.toNat ≠ [] := by
        rw [Ne, List.take_eq_nil_iff, not_or]
        exact ⟨by omega, hne⟩
      exact hpoint hwhole (fun c hc => hdigits c (List.mem_of_mem_take hc)) fun c hc => hdigits c (List.mem_of_mem_drop hc)
    next =>
      simp only [String.toList_append, String.toList_ofList, hsmall, List.cons_append, List.nil_append]
      exact hpoint (List.cons_ne_nil '0' []) (List.forall_mem_singleton.mpr rfl)
        (List.forall_mem_append.mpr ⟨hzeros _, hdigits⟩)

/-- The notation with an exponent is a number. -/
theorem isMagnitude_scientific (d : Decimal) : isMagnitude d.scientific.toList = true := by
  have hdigits : ∀ c ∈ d.digitText.toList, c.isDigit = true := Text.isDigit_of_mem_repr _
  have hne : d.digitText.toList ≠ [] := Text.toList_repr_ne_nil _
  have hscale (sign : String) (hsign : sign = "-" ∨ sign = "+") (n : Nat) :
      isScale ("e".toList ++ (sign.toList ++ n.repr.toList)) = true := by
    have hpower : Text.areDigits n.repr.toList = true :=
      areDigits_iff.mpr ⟨Text.toList_repr_ne_nil n, Text.isDigit_of_mem_repr n⟩
    rcases hsign with rfl | rfl <;> exact hpower
  have hpower := hscale (if d.pointPosition - 1 < 0 then "-" else "+") (by split <;> simp)
    (d.pointPosition - 1).natAbs
  unfold scientific
  dsimp only
  simp only [String.toList_append, List.append_assoc]
  generalize (if d.pointPosition - 1 < 0 then "-" else "+").toList ++ (d.pointPosition - 1).natAbs.repr.toList =
    power at hpower ⊢
  split
  next hnil => exact absurd hnil hne
  next c hc =>
    rw [hc] at hdigits
    rw [String.toList_ofList, isMagnitude_append (List.cons_ne_nil _ _) hdigits (by rintro _ ⟨⟩; rfl)]
    exact hpower
  next c rest _ hc =>
    rw [hc, List.forall_mem_cons] at hdigits
    rw [String.toList_ofList]
    exact isMagnitude_fraction (List.cons_ne_nil c []) (List.forall_mem_singleton.mpr hdigits.1) hdigits.2 hpower
      (by rintro _ ⟨⟩; rfl)

end Decimal

/-- Every number of JSON is written as a number of Python. -/
theorem JsonNumber.isNumber_render (n : JsonNumber) : isNumber n.render.toList = true := by
  have hsigned (x : Double) {magnitude : String} (h : isMagnitude magnitude.toList = true) :
      isNumber (x.signed magnitude).toList = true := by
    unfold Double.signed
    split
    · rw [String.toList_append]
      exact h
    · exact (isNumber_of_isMagnitude h).1
  cases n with
  | integer n =>
    have hdigits := Text.isMagnitude_repr n.natAbs
    change isNumber (if n < 0 then "-" ++ n.natAbs.repr else n.natAbs.repr).toList = true
    split
    · rw [String.toList_append]
      exact hdigits
    · exact (isNumber_of_isMagnitude hdigits).1
  | real x =>
    change isNumber x.jsonText.toList = true
    unfold Double.jsonText
    dsimp only
    split
    · exact hsigned x rfl
    · split
      · exact hsigned x (Decimal.isMagnitude_positional _)
      · exact hsigned x (Decimal.isMagnitude_scientific _)

/-- Zeros may stand in front of a fraction, but not in front of an integer. -/
example : isNumber "-0.25e+7".toList = true ∧ isNumber "00.5".toList = true ∧ isNumber "05".toList = false := by
  decide

end OntologyCompiler
