/-!
# Blanks, comments and line ends

What may stand between the parts of a TOML text. A comment runs to the end of its line and holds no
control characters but tabs; a line ends in a line feed, with or without a carriage return before it.
-/

namespace OntologyCompiler.Toml

/-- Whether a character is a blank within a line. -/
def isBlank (c : Char) : Bool := c == ' ' || c == '\t'

/-- Whether a character may stand in a comment or in a string. -/
def isPlain (c : Char) : Bool := c == '\t' || (32 ≤ c.toNat && c.toNat != 127)

/-- The text after blanks. -/
def skipBlanks (cs : List Char) : List Char := cs.dropWhile isBlank

/-- The text after a line end. -/
def afterLineEnd? : List Char → Option (List Char)
  | '\n' :: rest => some rest
  | '\r' :: '\n' :: rest => some rest
  | _ => none

/-- The text after a comment, if there is one. -/
def skipComment (cs : List Char) : List Char :=
  match cs with
  | '#' :: rest => rest.dropWhile isPlain
  | _ => cs

/-- The next line, if nothing but blanks and a comment is left of this one. -/
def nextLine? (cs : List Char) : Option (List Char) :=
  let rest := skipComment (skipBlanks cs)
  if rest.isEmpty then some [] else afterLineEnd? rest

/-- The text after blanks, comments and line ends. The flag says whether the text starts in a comment,
which must come to a line end. -/
def skipGap? : Bool → List Char → Option (List Char)
  | false, [] => some []
  | true, [] => none
  | _, '\r' :: '\n' :: rest => skipGap? false rest
  | _, '\n' :: rest => skipGap? false rest
  | true, c :: rest => if isPlain c then skipGap? true rest else none
  | false, c :: rest =>
    if isBlank c then skipGap? false rest
    else if c = '#' then skipGap? true rest
    else some (c :: rest)

/-- The text after blanks and line ends. -/
def skipLines : List Char → List Char
  | '\r' :: '\n' :: rest => skipLines rest
  | c :: rest => if isBlank c || c == '\n' then skipLines rest else c :: rest
  | [] => []

end OntologyCompiler.Toml
