import OntologyCompiler.Settings.Basic
import OntologyCompiler.Text.Digits
import OntologyCompiler.Text.Pieces

/-!
# Settings from environment variables

Variables that start with `ONTOGEN__`, in any letter case, are settings; two underscores in the rest of
the name lead into a table. A value that reads as a truth value, as an integer of 64 bits or as a
floating number is one; any other is a text.
-/

namespace OntologyCompiler

/-- A variable of the environment. -/
structure EnvironmentVariable where
  name : String
  value : String
  deriving DecidableEq, Repr, Inhabited

namespace EnvironmentVariable

/-- The variables of a block, in which each ends with a null character and has its name before the first
equals sign. -/
def ofBlock (block : String) : List EnvironmentVariable :=
  (Text.pieces (Char.ofNat 0) block.toList).filterMap fun piece =>
    (Text.cut? '=' piece).map fun parts => ⟨String.ofList parts.1, String.ofList parts.2⟩

/-- The value of the variable with a name. -/
def value? (environment : List EnvironmentVariable) (name : String) : Option String :=
  (environment.find? fun v => v.name == name).map EnvironmentVariable.value

/-- What the names of settings start with, in lower case. -/
def start : String := "ontogen__"

/-- The characters with a dot for every two underscores, from left to right. -/
def dotted : List Char → List Char
  | '_' :: '_' :: rest => '.' :: dotted rest
  | c :: rest => c :: dotted rest
  | [] => []

/-- The key of the setting that a variable stands for. -/
def key? (v : EnvironmentVariable) : Option String :=
  (Text.dropStart? start.toList (Text.lowerAscii v.name).toList).map fun rest => String.ofList (dotted rest)

/-- Reads an integer of 64 bits. -/
def integer? (cs : List Char) : Option Int :=
  let (negative, digits) := Text.splitSign cs
  let n := Text.signedValue negative (Text.digitsValue 10 digits)
  if Text.areDigits digits && Text.isInt64 n then some n else none

/-- Reads an exponent, which stands at the end. -/
def exponent? : List Char → Option Int
  | [] => some 0
  | c :: rest =>
    if c = 'e' ∨ c = 'E' then
      let (negative, digits) := Text.splitSign rest
      if Text.areDigits digits then some (Text.signedValue negative (Text.digitsValue 10 digits)) else none
    else none

/-- The fraction behind a point, and what follows it. -/
def splitFraction (cs : List Char) : List Char × List Char :=
  match cs with
  | '.' :: rest => (rest.takeWhile Char.isDigit, rest.dropWhile Char.isDigit)
  | _ => ([], cs)

/-- Reads a floating number. There must be a digit before or behind the point. -/
def floating? (cs : List Char) : Option Floating :=
  let (negative, magnitude) := Text.splitSign cs
  let word := Text.lowerAscii (String.ofList magnitude)
  if word = "inf" ∨ word = "infinity" then some (.infinite negative)
  else if word = "nan" then some .undefined
  else
    let whole := magnitude.takeWhile Char.isDigit
    let (fraction, rest) := splitFraction (magnitude.dropWhile Char.isDigit)
    if whole.isEmpty && fraction.isEmpty then none
    else (exponent? rest).map fun e =>
      Floating.ofDecimal negative (Text.digitsValue 10 (whole ++ fraction)) (e - (fraction.length : Int))

/-- The setting that a value reads as. -/
def setting (value : String) : Setting :=
  let word := Text.lowerAscii value
  if word = "true" then .boolean true
  else if word = "false" then .boolean false
  else
    match integer? value.toList with
    | some n => .integer n
    | none =>
      match floating? value.toList with
      | some x => .real x
      | none => .text value

/-- The layer that variables give; of variables for one key the last one stays. -/
def layer (environment : List EnvironmentVariable) : SettingFields :=
  (OrderedMap.ofList <| environment.filterMap fun v => v.key?.map fun key => (key, setting v.value)).entries

end EnvironmentVariable

end OntologyCompiler
