import OntologyCompiler.Number.Double

/-!
# Shortest decimals

The decimal with the fewest digits among those that round to a given double, and of these the
nearest one. The search tries ever finer decimal grids: on each it looks at the two neighbours of the
number and keeps those inside the interval of reals that round to it.
-/

namespace OntologyCompiler

/-- The decimal `digits · 10 ^ exponent`. -/
structure Decimal where
  digits : Nat
  exponent : Int
  deriving DecidableEq, Repr, Inhabited

/-- An interval of rationals around a value, all over one denominator. -/
structure RoundingInterval where
  low : Nat
  value : Nat
  high : Nat
  denominator : Nat
  closed : Bool

namespace RoundingInterval

/-- The reals that round to a positive double. -/
def ofDouble (x : Double) : RoundingInterval :=
  let m := x.significand
  let below := if m = Nat.pow 2 52 ∧ Double.minExponent < x.exponent then 1 else 2
  let unit := Double.shiftRatio 1 1 (x.exponent - 2)
  ⟨(4 * m - below) * unit.1, 4 * m * unit.1, (4 * m + 2) * unit.1, unit.2, m % 2 = 0⟩

/-- Whether `n` units of a grid lie inside the interval, the interval being given in grid steps. -/
def holds (i : RoundingInterval) (scale unit n : Nat) : Bool :=
  if i.closed then i.low * scale ≤ n * unit && n * unit ≤ i.high * scale
  else i.low * scale < n * unit && n * unit < i.high * scale

/-- The neighbour of the value on the grid of multiples of `10 ^ k` that lies in the interval; of two
the nearer one, and of two equally near ones the even one. -/
def onGrid? (i : RoundingInterval) (k : Int) : Option Nat :=
  let scale := Nat.pow 10 (-k).toNat
  let unit := i.denominator * Nat.pow 10 k.toNat
  let value := i.value * scale
  let floor := value / unit
  let rest := value % unit
  match i.holds scale unit floor, i.holds scale unit (floor + 1) with
  | false, false => none
  | true, false => some floor
  | false, true => some (floor + 1)
  | true, true =>
    if 2 * rest < unit then some floor
    else if unit < 2 * rest then some (floor + 1)
    else if floor % 2 = 0 then some floor else some (floor + 1)

/-- The first hit on successively finer grids. -/
def search (i : RoundingInterval) : Nat → Int → Decimal
  | 0, k => ⟨i.value / i.denominator, k⟩
  | fuel + 1, k =>
    match i.onGrid? k with
    | some n => ⟨n, k⟩
    | none => i.search fuel (k - 1)

end RoundingInterval

/-- The shortest decimal that rounds to the magnitude of a double.

Seventeen digits always suffice; the bound on the number of grids leaves room for the estimate of the
first one. -/
def Double.shortest (x : Double) : Decimal :=
  if x.significand = 0 then ⟨0, 0⟩
  else
    let bits : Int := (x.significand.log2 : Int) + x.exponent + 1
    (RoundingInterval.ofDouble x).search 24 (Int.fdiv (bits * 30103) 100000 + 1)

end OntologyCompiler
