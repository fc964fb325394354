import OntologyCompiler.Settings.Basic
import OntologyCompiler.Text.Digits
import OntologyCompiler.Text.Pieces

/-!
# Words, numbers and dates of TOML

The values without quotes. Single underscores may stand between digits. Integers have 64 bits and may be
hexadecimal, octal or binary; a floating number beyond the greatest double is refused. Dates and times
are kept as texts in their normal form: a `T` between date and time, and at most nine places of a
second without final zeros.
-/

namespace OntologyCompiler.Toml

/-- The digits of a base at the start of a text, with single underscores between them left out. -/
def moreDigits (base : Nat) : List Char → List Char × List Char
  | '_' :: c :: rest =>
    if Text.isDigitOf base c then
      let more := moreDigits base rest
      (c :: more.1, more.2)
    else ([], '_' :: c :: rest)
  | c :: rest =>
    if Text.isDigitOf base c then
      let more := moreDigits base rest
      (c :: more.1, more.2)
    else ([], c :: rest)
  | [] => ([], [])

/-- The digits of a base, of which there must be one. -/
def digits? (base : Nat) (cs : List Char) : Option (List Char × List Char) :=
  match cs with
  | [] => none
  | c :: _ => if Text.isDigitOf base c then some (moreDigits base cs) else none

/-- The digits before a point; a leading zero stands alone. -/
def wholeDigits? (cs : List Char) : Option (List Char × List Char) :=
  match cs with
  | '0' :: rest => some (['0'], rest)
  | _ => digits? 10 cs

/-- Reads an exponent. -/
def exponent? (cs : List Char) : Option (Int × List Char) :=
  match cs with
  | c :: rest =>
    if c = 'e' ∨ c = 'E' then
      let (negative, rest) := Text.splitSign rest
      (digits? 10 rest).map fun d => (Text.signedValue negative (Text.digitsValue 10 d.1), d.2)
    else none
  | [] => none

/-- A floating number, if it is not above the greatest double. -/
def floating? (negative : Bool) (whole fraction : List Char) (exponent : Int) : Option Setting :=
  match Floating.ofDecimal negative (Text.digitsValue 10 (whole ++ fraction)) (exponent - (fraction.length : Int)) with
  | .infinite false => none
  | x => some (.real x)

/-- Reads a floating number with a fraction or an exponent. -/
def decimalReal? (cs : List Char) : Option (Setting × List Char) := do
  let (negative, rest) := Text.splitSign cs
  let (whole, rest) ← wholeDigits? rest
  match rest with
  | '.' :: rest =>
    let (fraction, rest) ← digits? 10 rest
    let (exponent, rest) := (exponent? rest).getD (0, rest)
    let x ← floating? negative whole fraction exponent
    pure (x, rest)
  | _ =>
    let (exponent, rest) ← exponent? rest
    let x ← floating? negative whole [] exponent
    pure (x, rest)

/-- Reads a value that is a fixed word. -/
def word? (word : String) (value : Setting) (cs : List Char) : Option (Setting × List Char) :=
  (Text.dropStart? word.toList cs).map fun rest => (value, rest)

/-- Reads an infinite or undefined number. -/
def specialReal? (cs : List Char) : Option (Setting × List Char) :=
  let (negative, rest) := Text.splitSign cs
  word? "inf" (.real (.infinite negative)) rest <|> word? "nan" (.real .undefined) rest

/-- An integer with what follows it, if it has 64 bits. -/
def integerOf? (n : Int) (rest : List Char) : Option (Setting × List Char) :=
  if Text.isInt64 n then some (.integer n, rest) else none

/-- Reads the digits of an integer in a base other than ten. -/
def basedInteger? (base : Nat) (cs : List Char) : Option (Setting × List Char) :=
  (digits? base cs).bind fun d => integerOf? (Text.digitsValue base d.1) d.2

/-- Reads an integer. -/
def integer? (cs : List Char) : Option (Setting × List Char) :=
  match cs with
  | '0' :: 'x' :: rest => basedInteger? 16 rest
  | '0' :: 'o' :: rest => basedInteger? 8 rest
  | '0' :: 'b' :: rest => basedInteger? 2 rest
  | _ =>
    let (negative, rest) := Text.splitSign cs
    (wholeDigits? rest).bind fun d => integerOf? (Text.signedValue negative (Text.digitsValue 10 d.1)) d.2

/-- Reads a number of a fixed count of digits within bounds. -/
def fixed? (count least most : Nat) (cs : List Char) : Option (List Char × List Char) :=
  let digits := cs.take count
  let n := Text.digitsValue 10 digits
  if digits.length = count ∧ digits.all Char.isDigit ∧ least ≤ n ∧ n ≤ most then some (digits, cs.drop count)
  else none

/-- The number of days of a month. -/
def daysOf (year month : Nat) : Nat :=
  let isLeap := year % 4 = 0 ∧ (year % 100 ≠ 0 ∨ year % 400 = 0)
  if month = 2 then (if isLeap then 29 else 28)
  else if month = 4 ∨ month = 6 ∨ month = 9 ∨ month = 11 then 30
  else 31

/-- Reads a date. -/
def date? (cs : List Char) : Option (List Char × List Char) := do
  let (year, rest) ← fixed? 4 0 9999 cs
  let rest ← Text.dropStart? ['-'] rest
  let (month, rest) ← fixed? 2 1 12 rest
  let rest ← Text.dropStart? ['-'] rest
  let (day, rest) ← fixed? 2 1 (daysOf (Text.digitsValue 10 year) (Text.digitsValue 10 month)) rest
  pure (year ++ '-' :: month ++ '-' :: day, rest)

/-- The places of a second in normal form. -/
def secondPlaces (digits : List Char) : List Char :=
  match (((digits.take 9).reverse.dropWhile fun c => c == '0').reverse) with
  | [] => []
  | places => '.' :: places

/-- Reads a time of day. -/
def time? (cs : List Char) : Option (List Char × List Char) := do
  let (hour, rest) ← fixed? 2 0 23 cs
  let rest ← Text.dropStart? [':'] rest
  let (minute, rest) ← fixed? 2 0 59 rest
  let rest ← Text.dropStart? [':'] rest
  let (second, rest) ← fixed? 2 0 60 rest
  let whole := hour ++ ':' :: minute ++ ':' :: second
  match rest with
  | '.' :: c :: _ =>
    if c.isDigit then
      let places := (rest.drop 1).takeWhile Char.isDigit
      pure (whole ++ secondPlaces places, (rest.drop 1).dropWhile Char.isDigit)
    else none
  | _ => pure (whole, rest)

/-- Reads the offset of a time zone. -/
def offset? (cs : List Char) : Option (List Char × List Char) :=
  match cs with
  | [] => none
  | c :: rest =>
    if c = 'Z' ∨ c = 'z' then some (['Z'], rest)
    else if c = '+' ∨ c = '-' then do
      let (hour, rest) ← fixed? 2 0 23 rest
      let rest ← Text.dropStart? [':'] rest
      let (minute, rest) ← fixed? 2 0 59 rest
      let isZero := (hour ++ minute).all fun d => d == '0'
      pure ((if isZero then '+' else c) :: (hour ++ ':' :: minute), rest)
    else none

/-- Reads the time and the offset behind a date. -/
def timeOfDate? (cs : List Char) : Option (List Char × List Char) :=
  match cs with
  | [] => none
  | c :: rest =>
    if c = 'T' ∨ c = 't' ∨ c = ' ' then do
      let (time, rest) ← time? rest
      let (offset, rest) := (offset? rest).getD ([], rest)
      pure ('T' :: (time ++ offset), rest)
    else none

/-- Reads a date, a time, or both. -/
def moment? (cs : List Char) : Option (Setting × List Char) :=
  let found :=
    match date? cs with
    | some (date, rest) =>
      let (time, rest) := (timeOfDate? rest).getD ([], rest)
      some (date ++ time, rest)
    | none => time? cs
  found.map fun m => (.text (String.ofList m.1), m.2)

/-- Reads a value without quotes. -/
def plain? (cs : List Char) : Option (Setting × List Char) :=
  word? "true" (.boolean true) cs <|> word? "false" (.boolean false) cs <|> moment? cs <|> decimalReal? cs <|>
    specialReal? cs <|> integer? cs

end OntologyCompiler.Toml
