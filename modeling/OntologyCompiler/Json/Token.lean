import OntologyCompiler.Json.Literal

/-!
# JSON tokens

The tokens of a text, from left to right. A text or number token carries two readings: the strict one
gives its value, the loose one only says whether the token is well formed, which is all that is asked
of a part of the input that is passed over. The loose reading accepts an unpaired surrogate escape and
a number of any size.
-/

namespace OntologyCompiler

/-- A token of a JSON text. -/
inductive JsonToken where
  | openList
  | closeList
  | openObject
  | closeObject
  | comma
  | colon
  | word (value : Except ReadFailure Json)
  | number (strict : Except ReadFailure JsonNumber) (loose : Except ReadFailure Unit)
  | text (strict : Except ReadFailure String) (loose : Except ReadFailure Unit)
  | stray
  deriving Inhabited

namespace JsonToken

/-- The value of a hexadecimal digit. -/
def hexValue? (c : Char) : Option Nat :=
  if c.isDigit then some (c.toNat - 48)
  else if 'a' ≤ c ∧ c ≤ 'f' then some (c.toNat - 87)
  else if 'A' ≤ c ∧ c ≤ 'F' then some (c.toNat - 55)
  else none

/-- The code unit of four hexadecimal digits. Fewer than four bytes left mean that the text ends too
early. -/
def codeUnit (cs : List Char) : Except ReadFailure (Nat × List Char) :=
  match cs with
  | a :: b :: c :: d :: rest =>
    match hexValue? a, hexValue? b, hexValue? c, hexValue? d with
    | some a, some b, some c, some d => .ok (((a * 16 + b) * 16 + c) * 16 + d, rest)
    | _, _, _, _ => .error .malformed
  | _ =>
    if (String.ofList cs).utf8ByteSize < 4 then .error .unfinished else .error .malformed

/-- The characters read so far, last one first, and a leading surrogate that waits for its partner. -/
structure TextState where
  chars : List Char
  leading : Option Nat

/-- Adds a character that is not part of a surrogate pair. -/
def TextState.push (state : Except ReadFailure TextState) (c : Char) : Except ReadFailure TextState := do
  let s ← state
  match s.leading with
  | none => pure { s with chars := c :: s.chars }
  | some _ => throw .malformed

/-- Adds a code unit given by an escape. -/
def TextState.pushUnit (state : Except ReadFailure TextState) (n : Nat) : Except ReadFailure TextState := do
  let s ← state
  match s.leading with
  | none =>
    if 0xDC00 ≤ n ∧ n ≤ 0xDFFF then throw .malformed
    else if 0xD800 ≤ n ∧ n ≤ 0xDBFF then pure { s with leading := some n }
    else pure { s with chars := Char.ofNat n :: s.chars }
  | some high =>
    if 0xDC00 ≤ n ∧ n ≤ 0xDFFF then
      pure ⟨Char.ofNat (0x10000 + (high - 0xD800) * 0x400 + (n - 0xDC00)) :: s.chars, none⟩
    else throw .malformed

/-- The text token of a finished reading. -/
def TextState.close (state : Except ReadFailure TextState) : Except ReadFailure String := do
  let s ← state
  match s.leading with
  | none => pure (String.ofList s.chars.reverse)
  | some _ => throw .malformed

/-- The character of a one letter escape. -/
def escaped? (c : Char) : Option Char :=
  match c with
  | '"' => some '"'
  | '\\' => some '\\'
  | '/' => some '/'
  | 'b' => some (Char.ofNat 8)
  | 'f' => some (Char.ofNat 12)
  | 'n' => some '\n'
  | 'r' => some '\r'
  | 't' => some '\t'
  | _ => none

/-- A text token that cannot be read to its end. -/
def brokenText (state : Except ReadFailure TextState) (fault : ReadFailure) : JsonToken :=
  .text (state.bind fun _ => .error fault) (.error fault)

/-- The rest of a text after its opening quote. -/
def scanText : Nat → Except ReadFailure TextState → List Char → JsonToken × List Char
  | 0, state, _ => (brokenText state .unfinished, [])
  | fuel + 1, state, cs =>
    match cs with
    | [] => (brokenText state .unfinished, [])
    | '"' :: rest => (.text (TextState.close state) (.ok ()), rest)
    | '\\' :: [] => (brokenText state .unfinished, [])
    | '\\' :: 'u' :: rest =>
      match codeUnit rest with
      | .error fault => (brokenText state fault, [])
      | .ok (n, rest) => scanText fuel (TextState.pushUnit state n) rest
    | '\\' :: c :: rest =>
      match escaped? c with
      | some c => scanText fuel (TextState.push state c) rest
      | none => (brokenText state .malformed, [])
    | c :: rest =>
      if c.toNat < 32 then (brokenText state .malformed, [])
      else scanText fuel (TextState.push state c) rest

/-- Compares the letters of a word with the text. -/
def scanWord (value : Json) : List Char → List Char → JsonToken × List Char
  | [], rest => (.word (.ok value), rest)
  | _ :: _, [] => (.word (.error .unfinished), [])
  | w :: ws, c :: cs => if w = c then scanWord value ws cs else (.word (.error .malformed), [])

/-- A number token. -/
def scanNumber (cs : List Char) : JsonToken × List Char :=
  match NumberLiteral.scan cs with
  | .ok (literal, rest) =>
    match literal.value with
    | some n => (.number (.ok n) (.ok ()), rest)
    | none => (.number (.error .malformed) (.ok ()), rest)
  | .error .ended => (.number (.error .unfinished) (.error .malformed), [])
  | .error .illFormed => (.number (.error .malformed) (.error .malformed), [])

/-- The token that starts with a character that is not blank, and what follows it. The rest is no longer
than the fuel. -/
def scan (fuel : Nat) (c : Char) (rest : List Char) : JsonToken × List Char :=
  match c with
  | '[' => (.openList, rest)
  | ']' => (.closeList, rest)
  | '\x7b' => (.openObject, rest)
  | '\x7d' => (.closeObject, rest)
  | ',' => (.comma, rest)
  | ':' => (.colon, rest)
  | '"' => scanText fuel (.ok ⟨[], none⟩) rest
  | 'n' => scanWord .null "ull".toList rest
  | 't' => scanWord (.boolean true) "rue".toList rest
  | 'f' => scanWord (.boolean false) "alse".toList rest
  | _ => if c = '-' ∨ c.isDigit then scanNumber (c :: rest) else (.stray, rest)

/-- The tokens of a text. -/
def scanAll : Nat → List Char → List JsonToken
  | 0, _ => []
  | _ + 1, [] => []
  | fuel + 1, c :: rest =>
    if c = ' ' ∨ c = '\n' ∨ c = '\t' ∨ c = '\r' then scanAll fuel rest
    else
      let (token, rest) := scan fuel c rest
      token :: scanAll fuel rest

/-- The tokens of a text from left to right. -/
def ofText (s : String) : List JsonToken := scanAll s.toList.length s.toList

end JsonToken

end OntologyCompiler
