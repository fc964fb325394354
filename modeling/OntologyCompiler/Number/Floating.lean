import OntologyCompiler.Number.Notation

/-!
# Floating numbers

Doubles together with the infinities and the undefined number, as a settings file may write them. A
decimal becomes the nearest double; one beyond the greatest double becomes infinite.
-/

namespace OntologyCompiler

/-- A number that need not be finite. -/
inductive Floating where
  | finite (value : Double)
  | infinite (negative : Bool)
  | undefined
  deriving DecidableEq, Repr, Inhabited

namespace Floating

/-- Decimals whose first digit stands further left than this are greater than every double. -/
def maxPosition : Int := 310

/-- Decimals whose first digit stands further right than this are nearest to zero. -/
def minPosition : Int := -330

/-- The number nearest to `± digits · 10 ^ exponent`. -/
def ofDecimal (negative : Bool) (digits : Nat) (exponent : Int) : Floating :=
  let position : Int := (digits.repr.length : Int) + exponent
  if digits = 0 ∨ position < minPosition then .finite (Double.zero negative)
  else
    let rounded :=
      if maxPosition < position then none
      else if 0 ≤ exponent then Double.ofRatio negative (digits * Nat.pow 10 exponent.toNat) 1 0
      else Double.ofRatio negative digits (Nat.pow 10 (-exponent).toNat) 0
    match rounded with
    | some x => .finite x
    | none => .infinite negative

/-- The number in plain notation. -/
def plainText : Floating → String
  | .finite x => x.plainText
  | .infinite false => "inf"
  | .infinite true => "-inf"
  | .undefined => "NaN"

end Floating

end OntologyCompiler
