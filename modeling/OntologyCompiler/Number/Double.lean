/-!
# Double precision numbers

Finite binary numbers with a 53 bit significand, kept as exact integers. A ratio of naturals is
rounded to the nearest such number, a half going to the even neighbour; products and quotients are
the rounded exact ones.
-/

namespace OntologyCompiler

/-- The number `± significand · 2 ^ exponent`.

A nonzero number has its significand in the upper half of the 53 bit range, or the least exponent. -/
structure Double where
  negative : Bool
  significand : Nat
  exponent : Int
  deriving DecidableEq, Repr, Inhabited

namespace Double

/-- The exponent of the smallest positive number. -/
def minExponent : Int := -1074

/-- The exponent of the greatest finite number. -/
def maxExponent : Int := 971

/-- Zero with a sign. -/
def zero (negative : Bool) : Double := ⟨negative, 0, minExponent⟩

/-- Whether the number is zero, whatever its sign. -/
def isZero (x : Double) : Bool := x.significand == 0

/-- The number with the opposite sign. -/
def negate (x : Double) : Double := ⟨!x.negative, x.significand, x.exponent⟩

/-- The nearest natural to a ratio; a half goes to the even neighbour. -/
def roundRatio (num den : Nat) : Nat :=
  let floor := num / den
  let rest := num % den
  if 2 * rest < den then floor
  else if den < 2 * rest then floor + 1
  else if floor % 2 = 0 then floor else floor + 1

/-- Numerator and denominator of `num / den · 2 ^ shift`. -/
def shiftRatio (num den : Nat) (shift : Int) : Nat × Nat :=
  if 0 ≤ shift then (num * Nat.pow 2 shift.toNat, den) else (num, den * Nat.pow 2 (-shift).toNat)

/-- The nearest number to `± num / den · 2 ^ shift`, or none if it is too large to be finite. -/
def ofRatio (negative : Bool) (num den : Nat) (shift : Int) : Option Double :=
  if num = 0 then some (zero negative)
  else
    let size : Int := (num.log2 : Int) - (den.log2 : Int) + shift
    let low : Int := max minExponent (size - 53)
    let scaled (e : Int) : Nat × Nat := shiftRatio num den (shift - e)
    let exponent := if (scaled low).1 / (scaled low).2 < Nat.pow 2 53 then low else low + 1
    let significand := roundRatio (scaled exponent).1 (scaled exponent).2
    let rounded : Double :=
      if significand = Nat.pow 2 53 then ⟨negative, Nat.pow 2 52, exponent + 1⟩
      else ⟨negative, significand, exponent⟩
    if maxExponent < rounded.exponent then none else some rounded

/-- The nearest number to a natural, or none if it is too large to be finite. -/
def ofNat (n : Nat) : Option Double := ofRatio false n 1 0

/-- The rounded product, or none if it is too large to be finite. -/
def mul (x y : Double) : Option Double :=
  ofRatio (x.negative != y.negative) (x.significand * y.significand) 1 (x.exponent + y.exponent)

/-- The rounded quotient by a nonzero number, or none if it is too large to be finite. -/
def div (x y : Double) : Option Double :=
  ofRatio (x.negative != y.negative) x.significand y.significand (x.exponent - y.exponent)

/-- The nearest number to `10 ^ n`. -/
def powerOfTen (n : Nat) : Option Double := ofNat (Nat.pow 10 n)

end Double

end OntologyCompiler
