import OntologyCompiler.Settings.Basic

/-!
# Trees of tables

The tables of a TOML text while it is read. A table comes to be in one of three ways, and how it did
decides what may still be added to it: a table with a heading is open only below its heading, a table
implied by the heading of an inner one may still get its own, and a table made by a dotted key takes
further dotted keys. No key is given a value twice.
-/

namespace OntologyCompiler.Toml

/-- How a table came to be. -/
inductive TableOrigin where
  | heading
  | implied
  | dotted
  deriving DecidableEq, Repr, Inhabited

/-- What stands at a key. -/
inductive Node where
  | value (setting : Setting)
  | table (origin : TableOrigin) (fields : List (String × Node))
  /-- A list of tables with headings, the newest one first. -/
  | tables (items : List (List (String × Node)))
  deriving Inhabited

/-- The fields of a table that is being read. -/
abbrev Nodes := List (String × Node)

namespace Nodes

/-- Changes the table that names lead to. Tables that are not there are made, by a dotted key or by a
heading; a dotted key does not lead into a table with a heading, but into the newest of a list. -/
def within (dotted : Bool) (change : TableOrigin → Nodes → Option Nodes) :
    List String → TableOrigin → Nodes → Option Nodes
  | [], origin, fields => change origin fields
  | name :: rest, _, fields =>
    match fields.lookup name with
    | none =>
      let origin := if dotted then TableOrigin.dotted else TableOrigin.implied
      (within dotted change rest origin []).map fun inner =>
        OrderedMap.insertInto name (.table origin inner) fields
    | some (.value _) => none
    | some (.table origin inner) =>
      if dotted ∧ origin = .heading then none
      else (within dotted change rest origin inner).map fun inner =>
        OrderedMap.insertInto name (.table origin inner) fields
    | some (.tables []) => none
    | some (.tables (newest :: others)) =>
      (within dotted change rest .heading newest).map fun newest =>
        OrderedMap.insertInto name (.tables (newest :: others)) fields

/-- Gives a key its value. The table that the names of a dotted key lead to must be one made by dotted
keys. -/
def assign (path : List String) (name : String) (value : Setting) (fields : Nodes) : Option Nodes :=
  within true
    (fun origin fields =>
      if (origin == .dotted) == path.isEmpty ∨ (fields.lookup name).isSome then none
      else some (OrderedMap.insertInto name (.value value) fields))
    path .heading fields

/-- Opens the table of a heading. -/
def openTable (name : String) (fields : Nodes) : Option Nodes :=
  match fields.lookup name with
  | none => some (OrderedMap.insertInto name (.table .heading []) fields)
  | some (.table .implied inner) => some (OrderedMap.insertInto name (.table .heading inner) fields)
  | some _ => none

/-- Opens one more table of a list. -/
def openItem (name : String) (fields : Nodes) : Option Nodes :=
  match fields.lookup name with
  | none => some (OrderedMap.insertInto name (.tables [[]]) fields)
  | some (.tables items) => some (OrderedMap.insertInto name (.tables ([] :: items)) fields)
  | some _ => none

/-- Changes the table that the names of a heading lead to. -/
def below (path : List String) (change : Nodes → Option Nodes) (fields : Nodes) : Option Nodes :=
  within false (fun _ fields => change fields) path .heading fields

end Nodes

mutual

/-- The setting of a node. -/
def Node.toSetting : Node → Setting
  | .value setting => setting
  | .table _ fields => .table (Nodes.toFields fields)
  | .tables items => .list (Nodes.toItems items).reverse

/-- The settings of a table. -/
def Nodes.toFields : List (String × Node) → SettingFields
  | [] => []
  | (name, node) :: rest => (name, node.toSetting) :: Nodes.toFields rest

/-- The settings of a list of tables. -/
def Nodes.toItems : List (List (String × Node)) → List Setting
  | [] => []
  | fields :: rest => .table (Nodes.toFields fields) :: Nodes.toItems rest

end

end OntologyCompiler.Toml
