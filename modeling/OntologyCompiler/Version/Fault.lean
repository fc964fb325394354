import OntologyCompiler.Text.Printable
import OntologyCompiler.Version.Label

/-!
# Wording of version faults

A character that stands in the wrong place is quoted: backslash and apostrophe are escaped, the common
controls have letters, and other characters that do not print are given by number.
-/

namespace OntologyCompiler

/-- A number in lower case hexadecimal digits. -/
def Text.hexText (n : Nat) : String := String.ofList (Nat.toDigits 16 n)

/-- A character between apostrophes. -/
def Text.quoteChar (c : Char) : String :=
  let inner :=
    if c.toNat = 0 then "\\0"
    else if c = '\t' then "\\t"
    else if c = '\r' then "\\r"
    else if c = '\n' then "\\n"
    else if c = '\'' then "\\'"
    else if c = '\\' then "\\\\"
    else if Text.isPrintable c then String.ofList [c]
    else "\\u\x7b" ++ Text.hexText c.toNat ++ "\x7d"
  "'" ++ inner ++ "'"

namespace VersionFault

/-- The fault in words. -/
def message : VersionFault → String
  | .unexpectedEnd part => "unexpected end of input while parsing " ++ part.text
  | .unexpectedChar part c => "unexpected character " ++ Text.quoteChar c ++ " while parsing " ++ part.text
  | .unexpectedCharAfter part c => "unexpected character " ++ Text.quoteChar c ++ " after " ++ part.text
  | .leadingZero part => "invalid leading zero in " ++ part.text
  | .overflow part => "value of " ++ part.text ++ " exceeds u64::MAX"
  | .emptySegment part => "empty identifier segment in " ++ part.text

end VersionFault

end OntologyCompiler
