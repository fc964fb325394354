import OntologyCompiler.Ontology.ValueType

/-!
# The grammar of names and types

Recognisers for the names and type texts that a valid schema may hold. A name starts with a lower case
letter and goes on with lower case letters, digits and underscores; a reference is two names with one
dot between them; an association lists references between parentheses with blanks around them.
-/

namespace OntologyCompiler.Grammar

/-- A lower case ASCII letter. -/
def isLowerLetter (c : Char) : Bool := 'a' ≤ c && c ≤ 'z'

/-- A character after the first one of a name. -/
def isNameChar (c : Char) : Bool := isLowerLetter c || c.isDigit || c == '_'

/-- The characters of a name. -/
def isNameChars : List Char → Bool
  | [] => false
  | c :: cs => isLowerLetter c && cs.all isNameChar

/-- A schema, package or type name. -/
def isName (s : String) : Bool := isNameChars s.toList

/-- A property name: lower case letters and underscores only. -/
def isPropertyName (s : String) : Bool :=
  !s.toList.isEmpty && s.toList.all fun c => isLowerLetter c || c == '_'

/-- The characters of a reference. -/
def isQualifiedChars (cs : List Char) : Bool :=
  match Text.cut? '.' cs with
  | none => false
  | some (package, typeName) => isNameChars package && isNameChars typeName

/-- A reference `package.name`. -/
def isQualifiedName (s : String) : Bool := isQualifiedChars s.toList

/-- A bare word of lower case letters. -/
def isBareWord (s : String) : Bool := !s.toList.isEmpty && s.toList.all isLowerLetter

/-- An association: `linked_to(`, references with commas between them, and a closing parenthesis at the
very end. -/
def isLinkedType (s : String) : Bool :=
  match ValueType.linkedPart? s.toList with
  | none => false
  | some inner => (Text.pieces ',' inner).all fun part => isQualifiedChars (Text.trim part)

end OntologyCompiler.Grammar
