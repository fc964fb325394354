import OntologyCompiler.Number.Floating
import OntologyCompiler.Ordered.Map

/-!
# Settings

Loose values as configuration layers give them. Tables keep their fields in ascending order of names,
each name once.
-/

namespace OntologyCompiler

/-- A setting. -/
inductive Setting where
  /-- A place in a list that nothing has been put at. -/
  | unset
  | boolean (value : Bool)
  | integer (value : Int)
  | real (value : Floating)
  | text (value : String)
  | list (items : List Setting)
  | table (fields : List (String × Setting))
  deriving Inhabited

/-- The fields of a table, or of a layer. -/
abbrev SettingFields := List (String × Setting)

namespace Setting

/-- The fields of a table, none for other settings. -/
def fields : Setting → SettingFields
  | .table fields => fields
  | _ => []

/-- The items of a list, none for other settings. -/
def items : Setting → List Setting
  | .list items => items
  | _ => []

/-- The text of a text, a truth value or a number. -/
def plainText? : Setting → Option String
  | .text s => some s
  | .boolean true => some "true"
  | .boolean false => some "false"
  | .integer n => some n.repr
  | .real x => some x.plainText
  | _ => none

end Setting

end OntologyCompiler
