/-!
# Reading bytes as text

Bytes as UTF-8 text: strictly, or with a replacement character in the place of every faulty sequence.
A faulty sequence is the longest start of a well-formed one, or a single byte.
-/

namespace OntologyCompiler.Text

/-- The text of well-formed bytes. -/
def ofUtf8? (bytes : List UInt8) : Option String := String.fromUTF8? (ByteArray.mk bytes.toArray)

/-- The number of bytes after a leading byte, and the bounds of the first of them. -/
def continuation? (lead : UInt8) : Option (Nat × UInt8 × UInt8) :=
  if 0xC2 ≤ lead && lead ≤ 0xDF then some (1, 0x80, 0xBF)
  else if lead == 0xE0 then some (2, 0xA0, 0xBF)
  else if lead == 0xED then some (2, 0x80, 0x9F)
  else if 0xE1 ≤ lead && lead ≤ 0xEF then some (2, 0x80, 0xBF)
  else if lead == 0xF0 then some (3, 0x90, 0xBF)
  else if 0xF1 ≤ lead && lead ≤ 0xF3 then some (3, 0x80, 0xBF)
  else if lead == 0xF4 then some (3, 0x80, 0x8F)
  else none

/-- Reads further bytes of a character: its code point if all are there, and how many fit. -/
def continueChar (count : Nat) (low high : UInt8) (code taken : Nat) : List UInt8 → Option Nat × Nat
  | [] => (if count = 0 then some code else none, taken)
  | b :: rest =>
    if count = 0 then (some code, taken)
    else if low ≤ b && b ≤ high then
      continueChar (count - 1) 0x80 0xBF (code * 64 + (b.toNat - 0x80)) (taken + 1) rest
    else (none, taken)

/-- The payload bits of a leading byte. -/
def leadBits (lead : UInt8) (count : Nat) : Nat := lead.toNat % Nat.pow 2 (6 - count)

/-- The characters of bytes, faulty sequences replaced. -/
def lossyChars : Nat → List UInt8 → List Char
  | 0, _ => []
  | _ + 1, [] => []
  | fuel + 1, b :: rest =>
    if b < 0x80 then Char.ofNat b.toNat :: lossyChars fuel rest
    else
      match continuation? b with
      | none => Char.ofNat 0xFFFD :: lossyChars fuel rest
      | some (count, low, high) =>
        match continueChar count low high (leadBits b count) 0 rest with
        | (some code, taken) => Char.ofNat code :: lossyChars fuel (rest.drop taken)
        | (none, taken) => Char.ofNat 0xFFFD :: lossyChars fuel (rest.drop taken)

/-- The text of bytes, faulty sequences replaced. -/
def ofUtf8Lossy (bytes : List UInt8) : String := String.ofList (lossyChars bytes.length bytes)

end OntologyCompiler.Text
