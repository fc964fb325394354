import OntologyCompiler.Settings.Basic
import OntologyCompiler.Text.Digits
import OntologyCompiler.Text.Pieces

/-!
# Layers of settings

Layers are laid over one another, later ones winning. A table is merged into the table that is there,
field by field; any other value replaces what is there. The keys of a layer are paths: names with dots
between them, and positions in lists in brackets. A key that is no path stands for itself. The letter
case of names does not count.
-/

namespace OntologyCompiler

/-- A step from a setting to one inside it. -/
inductive SettingStep where
  | field (name : String)
  /-- The item of a list; negative positions count from the end. -/
  | item (position : Int)
  deriving DecidableEq, Repr, Inhabited

namespace SettingStep

/-- Whether a character may stand in a name. -/
def isNameChar (c : Char) : Bool := c.isAlphanum || c == ' ' || c == '_' || c == '-'

/-- Whether a character may stand around a position. -/
def isGap (c : Char) : Bool := c == ' ' || c == '\t'

/-- Reads a position, which may have gaps around it. -/
def position? (cs : List Char) : Option Int :=
  let cs := ((cs.dropWhile isGap).reverse.dropWhile isGap).reverse
  let (negative, digits) := if cs.head? = some '-' then (true, cs.drop 1) else (false, cs)
  let n := Text.signedValue negative (Text.digitsValue 10 digits)
  if Text.areDigits digits && Text.isInt64 n then some n else none

/-- The step to the field of a name, in lower case. -/
def named (name : List Char) : SettingStep := .field (Text.lowerAscii (String.ofList name))

/-- Reads the steps behind the first name of a path. -/
def more? : Nat → List Char → Option (List SettingStep)
  | _, [] => some []
  | 0, _ :: _ => none
  | fuel + 1, c :: rest =>
    if c = '.' then
      let name := rest.takeWhile isNameChar
      if name.isEmpty then none
      else (more? fuel (rest.dropWhile isNameChar)).map fun steps => named name :: steps
    else if c = '[' then do
      let (inner, rest) ← Text.cut? ']' rest
      let n ← position? inner
      let steps ← more? fuel rest
      pure (.item n :: steps)
    else none

/-- The path that a key stands for. -/
def ofKey (key : String) : List SettingStep :=
  let cs := key.toList
  let name := cs.takeWhile isNameChar
  let steps := if name.isEmpty then none else more? cs.length (cs.dropWhile isNameChar)
  match steps with
  | some steps => named name :: steps
  | none => [named cs]

end SettingStep

namespace Setting

mutual

/-- The fields with one of them given a value. -/
def assign (fields : SettingFields) (name : String) : Setting → SettingFields
  | .table incoming =>
    OrderedMap.insertInto name (merge ((fields.lookup name).getD (.table [])) incoming) fields
  | value => OrderedMap.insertInto name value fields

/-- A setting with the fields of a table merged into it, their names in lower case. Only a field makes it
a table. -/
def merge (target : Setting) : SettingFields → Setting
  | [] => target
  | (name, value) :: rest => merge (.table (assign target.fields (Text.lowerAscii name) value)) rest

end

/-- A list with one item changed, lengthened as needed. -/
def changeItem (items : List Setting) (position : Int) (change : Setting → Setting) : List Setting :=
  let n := (if 0 ≤ position then position else items.length + position).toNat
  (items ++ List.replicate (n + 1 - items.length) Setting.unset).modify n change

/-- A setting with a value put where a path leads. What stands in the way is replaced. -/
def place (value : Setting) : List SettingStep → Setting → Setting
  | [], _ => value
  | [.field name], target => .table (assign target.fields name value)
  | .field name :: rest, target =>
    let inner := place value rest ((target.fields.lookup name).getD .unset)
    .table (OrderedMap.insertInto name inner target.fields)
  | .item position :: rest, target => .list (changeItem target.items position (place value rest))

/-- The fields with a layer laid over them. -/
def overlay (under : SettingFields) (layer : SettingFields) : SettingFields :=
  layer.foldl (fun under entry => (place entry.2 (SettingStep.ofKey entry.1) (.table under)).fields) under

end Setting

end OntologyCompiler
