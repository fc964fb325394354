import OntologyCompiler.Text.Pieces

/-!
# Names of generated things

How ontology names become Python class names, attributes, enumeration members, modules and
directories. Only ASCII letters change case. Distinct members of one enumeration get distinct
constants.
-/

namespace OntologyCompiler.Naming

/-- The reserved words of Python. -/
def keywords : List String := [
  "False", "None", "True", "and", "as", "assert", "async", "await", "break", "class", "continue",
  "def", "del", "elif", "else", "except", "finally", "for", "from", "global", "if", "import", "in",
  "is", "lambda", "nonlocal", "not", "or", "pass", "raise", "return", "try", "while", "with", "yield"]

/-- Whether a name is a reserved word. -/
def isKeyword (name : String) : Bool := keywords.contains name

/-- The characters that separate words. -/
def isSeparator (c : Char) : Bool := c == '-' || c == ' ' || c == '.'

/-- Words run together, each with a capital; `capital` says that a word starts here. -/
def pascalChars (capital : Bool) : List Char → List Char
  | [] => []
  | c :: cs =>
    if c == '_' || isSeparator c then pascalChars true cs
    else (if capital then c.toUpper else c) :: pascalChars false cs

/-- `cim_party` becomes `CimParty`. -/
def pascal (name : String) : String := String.ofList (pascalChars true name.toList)

/-- Lower case words with underscores; `word` says that a lower case letter or a digit stands before. -/
def snakeChars (word : Bool) : List Char → List Char
  | [] => []
  | c :: cs =>
    if c.isUpper then
      if word then '_' :: c.toLower :: snakeChars false cs else c.toLower :: snakeChars false cs
    else if isSeparator c then '_' :: snakeChars false cs
    else c :: snakeChars (c.isLower || c.isDigit) cs

/-- `CimParty` becomes `cim_party`. -/
def snake (name : String) : String := String.ofList (snakeChars false name.toList)

/-- An ASCII letter in upper case, a digit as it is, any other character as an underscore. -/
def constantChar (c : Char) : Char := if c.isAlphanum then c.toUpper else '_'

/-- Upper case words with underscores, with one more in front of a digit and for the empty name. -/
def constantChars (cs : List Char) : List Char :=
  let upper := (snakeChars false cs).map constantChar
  match upper with
  | [] => ['_']
  | c :: _ => if c.isDigit then '_' :: upper else upper

/-- The constant named after an enumeration member. -/
def constant (name : String) : String := String.ofList (constantChars name.toList)

/-- A constant with a number behind it. -/
def numbered (base : String) (n : Nat) : String := base ++ ("_" ++ n.repr)

/-- The first numbered constant from `n` on that is not taken, within a bound. -/
def freeNumbered (taken : List String) (base : String) : Nat → Nat → String
  | 0, n => numbered base n
  | fuel + 1, n =>
    if taken.contains (numbered base n) then freeNumbered taken base fuel (n + 1) else numbered base n

/-- A constant that is not taken: the base itself, or the base with the least free number from 2. As many
numbers as there are taken names are enough to try. -/
def freeName (taken : List String) (base : String) : String :=
  if taken.contains base then freeNumbered taken base taken.length 2 else base

/-- The constants of members after some names have been taken. -/
def uniqueFrom (taken : List String) : List String → List String
  | [] => []
  | member :: rest =>
    let name := freeName taken (constant member)
    name :: uniqueFrom (name :: taken) rest

/-- The constants of the members of an enumeration, in order. -/
def uniqueConstants (members : List String) : List String := uniqueFrom [] members

/-- The attribute of a property; a reserved word gets an underscore behind it. -/
def attributeName (name : String) : String :=
  let base := snake name
  if isKeyword base then base ++ "_" else base

/-- The class of a type. -/
def className (name : String) : String := pascal name

/-- `1.2` becomes `v1_2`. -/
def versionDirectory (version : String) : String := "v" ++ Text.replaceChar '.' '_' version

/-- The module of a package for one kind of output. -/
def moduleName (package suffix : String) : String := snake package ++ ("_" ++ suffix)

/-- The file of a package for one kind of output. -/
def fileName (package suffix : String) : String := moduleName package suffix ++ ".py"

end OntologyCompiler.Naming
