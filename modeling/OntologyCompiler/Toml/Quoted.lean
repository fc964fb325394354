import OntologyCompiler.Text.Digits
import OntologyCompiler.Toml.Blank

/-!
# Quoted strings of TOML

Reading and writing strings. Between quotation marks a backslash starts an escape; between apostrophes
nothing does. Three marks open a string of several lines. Writing takes the first style that shows the
text without an escape.
-/

namespace OntologyCompiler.Toml

/-- The character that a number of hexadecimal digits stands for, and what follows them. -/
def codePoint? (count : Nat) (cs : List Char) : Option (Char × List Char) :=
  let digits := cs.take count
  let code := Text.digitsValue 16 digits
  if digits.length = count ∧ digits.all (Text.isDigitOf 16) ∧ Nat.isValidChar code then
    some (Char.ofNat code, cs.drop count)
  else none

/-- The character of an escape behind its backslash, and what follows it. -/
def escaped? : List Char → Option (Char × List Char)
  | 'b' :: rest => some (Char.ofNat 8, rest)
  | 't' :: rest => some ('\t', rest)
  | 'n' :: rest => some ('\n', rest)
  | 'f' :: rest => some (Char.ofNat 12, rest)
  | 'r' :: rest => some ('\r', rest)
  | '"' :: rest => some ('"', rest)
  | '\\' :: rest => some ('\\', rest)
  | 'u' :: rest => codePoint? 4 rest
  | 'U' :: rest => codePoint? 8 rest
  | _ => none

/-- Characters put in front of those of a string. -/
def prepend (front : List Char) (s : List Char × List Char) : List Char × List Char := (front ++ s.1, s.2)

/-- Reads a string of one line behind its opening quotation mark. -/
def basic? : Nat → List Char → Option (List Char × List Char)
  | 0, _ => none
  | fuel + 1, cs =>
    match cs with
    | [] => none
    | '"' :: rest => some ([], rest)
    | '\\' :: rest => (escaped? rest).bind fun e => (basic? fuel e.2).map (prepend [e.1])
    | c :: rest => if isPlain c then (basic? fuel rest).map (prepend [c]) else none

/-- Reads a string of one line behind its opening apostrophe. -/
def literal? (cs : List Char) : Option (List Char × List Char) :=
  let isInside (c : Char) : Bool := isPlain c && c != '\''
  match cs.dropWhile isInside with
  | '\'' :: rest => some (cs.takeWhile isInside, rest)
  | _ => none

/-- The text after a backslash that ends its line: blanks and further line ends are dropped. -/
def continuedLine? (cs : List Char) : Option (List Char) :=
  (afterLineEnd? (skipBlanks cs)).map skipLines

/-- Reads a string of several lines. Up to two marks may stand before the three that close it. -/
def multiline? (mark : Char) (escapes : Bool) : Nat → List Char → Option (List Char × List Char)
  | 0, _ => none
  | fuel + 1, cs =>
    let run := (cs.takeWhile fun c => c == mark).length
    if 3 ≤ run then
      let kept := min (run - 3) 2
      some (List.replicate kept mark, cs.drop (kept + 3))
    else if 0 < run then
      (multiline? mark escapes fuel (cs.drop run)).map (prepend (List.replicate run mark))
    else
      match cs with
      | [] => none
      | c :: rest =>
        if c = '\\' ∧ escapes then
          match continuedLine? rest with
          | some rest => multiline? mark escapes fuel rest
          | none => (escaped? rest).bind fun e => (multiline? mark escapes fuel e.2).map (prepend [e.1])
        else
          match afterLineEnd? cs with
          | some rest => (multiline? mark escapes fuel rest).map (prepend ['\n'])
          | none => if isPlain c then (multiline? mark escapes fuel rest).map (prepend [c]) else none

/-- Reads a string of several lines; a line end right behind the opening marks does not count. -/
def openedMultiline? (mark : Char) (escapes : Bool) (cs : List Char) : Option (List Char × List Char) :=
  multiline? mark escapes (cs.length + 1) ((afterLineEnd? cs).getD cs)

/-- Reads a string with its marks. -/
def quoted? (cs : List Char) : Option (String × List Char) :=
  let inner :=
    match cs with
    | '"' :: '"' :: '"' :: rest => openedMultiline? '"' true rest
    | '\'' :: '\'' :: '\'' :: rest => openedMultiline? '\'' false rest
    | '"' :: rest => basic? (rest.length + 1) rest
    | '\'' :: rest => literal? rest
    | _ => none
  inner.map fun s => (String.ofList s.1, s.2)

/-- The longest run of a character. -/
def longestRun (mark : Char) (cs : List Char) : Nat :=
  (cs.foldl (fun (best, run) c => if c = mark then (max best (run + 1), run + 1) else (best, 0)) (0, 0)).1

/-- Whether a character can only be written as an escape. -/
def needsEscape (c : Char) : Bool := !isPlain c && c != '\n'

/-- A digit of an escape. -/
def upperHexDigit (n : Nat) : Char := if n < 10 then Char.ofNat (48 + n) else Char.ofNat (55 + n)

/-- A character other than a quotation mark between quotation marks. In a string of several lines, line
feeds stand as they are. -/
def escape (lines : Bool) (c : Char) : List Char :=
  if c.toNat = 8 then ['\\', 'b']
  else if c = '\t' then ['\\', 't']
  else if c = '\n' then (if lines then ['\n'] else ['\\', 'n'])
  else if c.toNat = 12 then ['\\', 'f']
  else if c = '\r' then ['\\', 'r']
  else if c = '\\' then ['\\', '\\']
  else if c.toNat < 32 ∨ c.toNat = 127 then
    ['\\', 'u', '0', '0', upperHexDigit (c.toNat / 16), upperHexDigit (c.toNat % 16)]
  else [c]

/-- A text between quotation marks, after a run of quotation marks. In a string of several lines two of
them may stand in a row, and the third is escaped. -/
def escapeAll (lines : Bool) : Nat → List Char → List Char
  | _, [] => []
  | run, c :: rest =>
    if c = '"' then
      if lines ∧ run < 2 then '"' :: escapeAll lines (run + 1) rest
      else '\\' :: '"' :: escapeAll lines 0 rest
    else escape lines c ++ escapeAll lines 0 rest

/-- The ways to write a string. -/
inductive QuoteStyle where
  | basic
  | literal
  | multilineBasic
  | multilineLiteral
  deriving DecidableEq, Repr, Inhabited

/-- The first way that shows a text without escapes, on one line rather than on several and between
quotation marks rather than apostrophes; or else the way that can write any text. -/
def QuoteStyle.of (cs : List Char) : QuoteStyle :=
  let lines := cs.contains '\n'
  let clean := !cs.any needsEscape
  let unescaped := clean && !cs.contains '\\'
  if unescaped && !lines && !cs.contains '"' then .basic
  else if clean && !lines && !cs.contains '\'' then .literal
  else if unescaped && longestRun '"' cs ≤ 2 then .multilineBasic
  else if clean && longestRun '\'' cs ≤ 2 then .multilineLiteral
  else if lines then .multilineBasic
  else .basic

/-- A text as a string with its marks. A text of several lines starts on a line of its own. -/
def quote (s : String) : String :=
  let cs := s.toList
  let opening := if cs.contains '\n' then "\n" else ""
  match QuoteStyle.of cs with
  | .basic => "\"" ++ String.ofList (escapeAll false 0 cs) ++ "\""
  | .literal => "'" ++ s ++ "'"
  | .multilineBasic => "\"\"\"" ++ opening ++ String.ofList (escapeAll true 0 cs) ++ "\"\"\""
  | .multilineLiteral => "'''" ++ opening ++ s ++ "'''"

end OntologyCompiler.Toml
