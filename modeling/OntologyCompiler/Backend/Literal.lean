import OntologyCompiler.Json.Text

/-!
# Python literals

The Python literal of a JSON value. Texts and numbers are written as in JSON, whose escapes mean the
same in Python.
-/

namespace OntologyCompiler.Literal

mutual

/-- The literal of a value. -/
def render : Json → String
  | .null => "None"
  | .boolean true => "True"
  | .boolean false => "False"
  | .number n => n.render
  | .text s => Json.quote s
  | .list items => "[" ++ (renderItems items ++ "]")
  | .object fields => "\x7b" ++ (renderFields fields ++ "\x7d")

/-- The items of a list with commas and spaces between them. -/
def renderItems : List Json → String
  | [] => ""
  | [a] => render a
  | a :: b :: rest => render a ++ (", " ++ renderItems (b :: rest))

/-- The fields of an object with commas and spaces between them. -/
def renderFields : List (String × Json) → String
  | [] => ""
  | [(k, a)] => Json.quote k ++ (": " ++ render a)
  | (k, a) :: f :: rest => Json.quote k ++ (": " ++ (render a ++ (", " ++ renderFields (f :: rest))))

end

/-- The literal of a truth value. -/
def flag (b : Bool) : String := if b then "True" else "False"

end OntologyCompiler.Literal
