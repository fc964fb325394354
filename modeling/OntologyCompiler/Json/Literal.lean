import OntologyCompiler.Json.Basic

/-!
# Number literals

The grammar of a JSON number and the value of a literal. Digits gather into a 64 bit significand for
as long as it does not overflow; later digits before the point raise the exponent and later ones after
it are dropped. A literal without point or exponent that fits is an integer, any other is the
significand, rounded, times or divided by a rounded power of ten.
-/

namespace OntologyCompiler

/-- The parts of a number literal. -/
structure NumberLiteral where
  negative : Bool
  whole : List Char
  fraction : Option (List Char)
  /-- Whether the exponent is negative, and its digits. -/
  exponent : Option (Bool × List Char)
  deriving DecidableEq, Repr

/-- Why a literal is none: it stops where a digit must stand, or another character stands there. -/
inductive LiteralFault where
  | ended
  | illFormed
  deriving DecidableEq, Repr

namespace NumberLiteral

/-- The value of a decimal digit. -/
def digitValue (c : Char) : Nat := c.toNat - 48

/-- The greatest significand. -/
def maxSignificand : Nat := Nat.pow 2 64 - 1

/-- The digits at the start of a text, of which there must be one, and what follows them. -/
def scanDigits (cs : List Char) : Except LiteralFault (List Char × List Char) :=
  match cs with
  | [] => .error .ended
  | c :: _ =>
    if c.isDigit then .ok (cs.takeWhile Char.isDigit, cs.dropWhile Char.isDigit)
    else .error .illFormed

/-- The digits before the point; a leading zero stands alone. -/
def scanWhole (cs : List Char) : Except LiteralFault (List Char × List Char) :=
  match cs with
  | '0' :: rest =>
    if (rest.head?.map Char.isDigit).getD false then .error .illFormed else .ok (['0'], rest)
  | _ => scanDigits cs

/-- A point and digits, if a point follows. -/
def scanFraction (cs : List Char) : Except LiteralFault (Option (List Char) × List Char) :=
  match cs with
  | '.' :: rest => (scanDigits rest).map fun parts => (some parts.1, parts.2)
  | _ => .ok (none, cs)

/-- The sign and digits of an exponent, if one follows. -/
def scanExponent (cs : List Char) : Except LiteralFault (Option (Bool × List Char) × List Char) :=
  match cs with
  | c :: rest =>
    if c = 'e' ∨ c = 'E' then
      match rest with
      | '-' :: digits => (scanDigits digits).map fun parts => (some (true, parts.1), parts.2)
      | '+' :: digits => (scanDigits digits).map fun parts => (some (false, parts.1), parts.2)
      | _ => (scanDigits rest).map fun parts => (some (false, parts.1), parts.2)
    else .ok (none, cs)
  | [] => .ok (none, cs)

/-- The longest literal at the start of a text and what follows it. -/
def scan (cs : List Char) : Except LiteralFault (NumberLiteral × List Char) := do
  let negative := cs.head? = some '-'
  let (whole, rest) ← scanWhole (if negative then cs.drop 1 else cs)
  let (fraction, rest) ← scanFraction rest
  let (exponent, rest) ← scanExponent rest
  pure (⟨negative, whole, fraction, exponent⟩, rest)

/-- A significand gathered so far, the power of ten it is to be scaled by, and whether a digit has been
lost. -/
structure Gathered where
  significand : Nat
  scale : Int
  full : Bool

/-- A digit before the point. -/
def Gathered.wholeDigit (g : Gathered) (c : Char) : Gathered :=
  let next := g.significand * 10 + digitValue c
  if g.full || maxSignificand < next then { g with scale := g.scale + 1, full := true }
  else { g with significand := next }

/-- A digit after the point. -/
def Gathered.fractionDigit (g : Gathered) (c : Char) : Gathered :=
  let next := g.significand * 10 + digitValue c
  if g.full || maxSignificand < next then { g with full := true }
  else { g with significand := next, scale := g.scale - 1 }

/-- The value of an exponent's digits, or none above the greatest 32 bit integer. -/
def exponentValue (digits : List Char) : Option Nat :=
  let value := digits.foldl (fun n c => if n < Nat.pow 2 31 then n * 10 + digitValue c else n) 0
  if value < Nat.pow 2 31 then some value else none

/-- A number times a power of ten, the power taken as one rounded factor of at most `1e308`. -/
def scaleBy (x : Double) (exponent : Int) : Nat → Option Double
  | 0 => some x
  | fuel + 1 =>
    if exponent.natAbs ≤ 308 then do
      let power ← Double.powerOfTen exponent.natAbs
      if 0 ≤ exponent then x.mul power else x.div power
    else if x.isZero then some x
    else if 0 ≤ exponent then none
    else do
      let power ← Double.powerOfTen 308
      let smaller ← x.div power
      scaleBy smaller (exponent + 308) fuel

/-- The double of a significand and an exponent, or none if it is too large. -/
def ofParts (negative : Bool) (significand : Nat) (exponent : Int) : Option Double := do
  let x ← Double.ofNat significand
  let scaled ← scaleBy x exponent 4
  pure (if negative then scaled.negate else scaled)

/-- The value of a literal that is not an integer. -/
def realValue (l : NumberLiteral) : Option Double :=
  let whole := l.whole.foldl Gathered.wholeDigit ⟨0, 0, false⟩
  let start := { whole with full := false }
  let all := (l.fraction.getD []).foldl Gathered.fractionDigit start
  match l.exponent with
  | none => ofParts l.negative all.significand all.scale
  | some (down, digits) =>
    match exponentValue digits with
    | some n => ofParts l.negative all.significand (if down then all.scale - n else all.scale + n)
    | none =>
      if all.significand ≠ 0 ∧ !down then none else some (Double.zero l.negative)

/-- The value of a literal, or none if it is too large for a double. -/
def value (l : NumberLiteral) : Option JsonNumber :=
  let whole := l.whole.foldl Gathered.wholeDigit ⟨0, 0, false⟩
  let n := whole.significand
  if l.fraction.isNone && l.exponent.isNone && !whole.full then
    if !l.negative then some (.integer n)
    else if 0 < n && n ≤ Nat.pow 2 63 then some (.integer (-(n : Int)))
    else l.realValue.map .real
  else l.realValue.map .real

end NumberLiteral

end OntologyCompiler
