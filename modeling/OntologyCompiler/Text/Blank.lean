/-!
# Blank characters

The characters of Unicode's White_Space property, and trimming by them. A zero width space and a
byte order mark are not blank.
-/

namespace OntologyCompiler.Text

/-- The characters with Unicode's White_Space property. -/
def isBlank (c : Char) : Bool :=
  let n := c.toNat
  (0x09 ≤ n && n ≤ 0x0D) || n == 0x20 || n == 0x85 || n == 0xA0 || n == 0x1680 ||
    (0x2000 ≤ n && n ≤ 0x200A) || n == 0x2028 || n == 0x2029 || n == 0x202F || n == 0x205F ||
    n == 0x3000

/-- Removes blank characters from both ends. -/
def trim (cs : List Char) : List Char :=
  ((cs.dropWhile isBlank).reverse.dropWhile isBlank).reverse

/-- The text without blank characters at its ends. -/
def trimmed (s : String) : String := String.ofList (trim s.toList)

/-- A text without any character that is not blank. -/
def isBlankText (s : String) : Bool := s.toList.all isBlank

end OntologyCompiler.Text
