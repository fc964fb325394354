import OntologyCompiler.Json.Basic
import OntologyCompiler.Number.Notation

/-!
# Writing JSON

Compact text without spaces, object fields in their stored order. Of the characters of a text only
the quote, the backslash and those below U+0020 are escaped.
-/

namespace OntologyCompiler

/-- A double in positional notation from `0.00001` to below `1e16`, with an exponent otherwise; an
integral one keeps a zero after the point. -/
def Double.jsonText (x : Double) : String :=
  let d := x.shortest
  if x.significand = 0 then x.signed "0.0"
  else if -5 < d.pointPosition ∧ d.pointPosition ≤ 16 then x.signed (d.positional ".0")
  else x.signed d.scientific

/-- The digits of a number. -/
def JsonNumber.render : JsonNumber → String
  | .integer n => if n < 0 then "-" ++ n.natAbs.repr else n.natAbs.repr
  | .real x => x.jsonText

namespace Json

/-- A hexadecimal digit in lower case. -/
def hexDigit (n : Nat) : Char := if n < 10 then Char.ofNat (48 + n) else Char.ofNat (87 + n)

/-- A character between quotes. -/
def escapeChar (c : Char) : List Char :=
  if c = '"' then ['\\', '"']
  else if c = '\\' then ['\\', '\\']
  else if c = '\n' then ['\\', 'n']
  else if c = '\r' then ['\\', 'r']
  else if c = '\t' then ['\\', 't']
  else if c.toNat = 8 then ['\\', 'b']
  else if c.toNat = 12 then ['\\', 'f']
  else if c.toNat < 32 then ['\\', 'u', '0', '0', hexDigit (c.toNat / 16), hexDigit (c.toNat % 16)]
  else [c]

/-- A text between quotes. -/
def quote (s : String) : String := String.ofList ('"' :: (s.toList.flatMap escapeChar ++ ['"']))

mutual

/-- The compact text of a value. -/
def render : Json → String
  | .null => "null"
  | .boolean true => "true"
  | .boolean false => "false"
  | .number n => n.render
  | .text s => quote s
  | .list items => "[" ++ (renderItems items ++ "]")
  | .object fields => "\x7b" ++ (renderFields fields ++ "\x7d")

/-- The items of a list with commas between them. -/
def renderItems : List Json → String
  | [] => ""
  | [a] => render a
  | a :: b :: rest => render a ++ ("," ++ renderItems (b :: rest))

/-- The fields of an object with commas between them. -/
def renderFields : List (String × Json) → String
  | [] => ""
  | [(k, a)] => quote k ++ (":" ++ render a)
  | (k, a) :: f :: rest => quote k ++ (":" ++ (render a ++ ("," ++ renderFields (f :: rest))))

end

end Json

end OntologyCompiler
