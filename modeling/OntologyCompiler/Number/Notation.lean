import OntologyCompiler.Number.Shortest

/-!
# Decimal notation

Two ways to write a decimal: positional, with zeros filled in, and with an exponent after one leading
digit.
-/

namespace OntologyCompiler

namespace Decimal

/-- The digits without sign or point. -/
def digitText (d : Decimal) : String := d.digits.repr

/-- The position of the point counted from the first digit. -/
def pointPosition (d : Decimal) : Int := (d.digitText.length : Int) + d.exponent

/-- A run of zeros. -/
def zeros (n : Nat) : String := String.ofList (List.replicate n '0')

/-- Positional notation; `fraction` is what follows an integer. -/
def positional (fraction : String) (d : Decimal) : String :=
  let text := d.digitText.toList
  if 0 ≤ d.exponent then String.ofList text ++ zeros d.exponent.toNat ++ fraction
  else if 0 < d.pointPosition then
    let whole := d.pointPosition.toNat
    String.ofList (text.take whole) ++ "." ++ String.ofList (text.drop whole)
  else "0." ++ zeros (-d.pointPosition).toNat ++ String.ofList text

/-- One digit, a point before further digits, and the exponent with its sign. -/
def scientific (d : Decimal) : String :=
  let power := d.pointPosition - 1
  let sign := if power < 0 then "-" else "+"
  let mantissa :=
    match d.digitText.toList with
    | [] => ""
    | [c] => String.ofList [c]
    | c :: rest => String.ofList (c :: '.' :: rest)
  mantissa ++ "e" ++ sign ++ power.natAbs.repr

end Decimal

/-- A sign before the text of a magnitude. -/
def Double.signed (x : Double) (magnitude : String) : String :=
  if x.negative then "-" ++ magnitude else magnitude

/-- Positional notation without a fraction for integers. -/
def Double.plainText (x : Double) : String :=
  x.signed (x.shortest.positional "")

end OntologyCompiler
