import OntologyCompiler.Toml.Value

/-!
# TOML texts

A text is a sequence of headings and pairs. A heading names the table that the pairs below it belong
to; a heading in double brackets starts one more table of a list.
-/

namespace OntologyCompiler.Toml

/-- A heading or a pair. -/
inductive Statement where
  | heading (path : List String) (name : String)
  | item (path : List String) (name : String)
  | pair (path : List String) (name : String) (value : Setting)
  deriving Inhabited

/-- Reads a heading behind its opening brackets, up to the next line. -/
def heading? (close : List Char) (cs : List Char) : Option ((List String × String) × List Char) := do
  let (key, rest) ← key? cs
  let rest ← Text.dropStart? close rest
  let rest ← nextLine? rest
  pure (key, rest)

/-- Reads a pair, up to the next line. -/
def pair? (cs : List Char) : Option (((List String × String) × Setting) × List Char) := do
  let (key, rest) ← key? cs
  let rest ← Text.dropStart? ['='] rest
  let rest := skipBlanks rest
  let (v, rest) ← value? (2 * rest.length + 2) maxDepth rest
  let rest ← nextLine? rest
  pure ((key, v), rest)

/-- Reads the statements of a text. Each takes at least one character, which bounds their number. -/
def statements? : Nat → List Char → Option (List Statement)
  | 0, _ => none
  | fuel + 1, cs =>
    match nextLine? cs with
    | some [] => some []
    | some rest => statements? fuel rest
    | none =>
      match skipBlanks cs with
      | '[' :: '[' :: rest => do
        let ((path, name), rest) ← heading? [']', ']'] rest
        let others ← statements? fuel rest
        pure (.item path name :: others)
      | '[' :: rest => do
        let ((path, name), rest) ← heading? [']'] rest
        let others ← statements? fuel rest
        pure (.heading path name :: others)
      | rest => do
        let (((path, name), v), rest) ← pair? rest
        let others ← statements? fuel rest
        pure (.pair path name v :: others)

/-- The tables of statements, given the names of the current heading. -/
def assemble? : List String → Nodes → List Statement → Option Nodes
  | _, fields, [] => some fields
  | _, fields, .heading path name :: rest =>
    (Nodes.below path (Nodes.openTable name) fields).bind fun fields => assemble? (path ++ [name]) fields rest
  | _, fields, .item path name :: rest =>
    (Nodes.below path (Nodes.openItem name) fields).bind fun fields => assemble? (path ++ [name]) fields rest
  | current, fields, .pair path name v :: rest =>
    (Nodes.below current (Nodes.assign path name v) fields).bind fun fields => assemble? current fields rest

/-- A text without a byte order mark in front. -/
def dropMark (cs : List Char) : List Char :=
  match cs with
  | c :: rest => if c.toNat = 0xFEFF then rest else cs
  | [] => []

/-- Reads a text. -/
def read? (s : String) : Option SettingFields := do
  let cs := dropMark s.toList
  let statements ← statements? (cs.length + 1) cs
  let fields ← assemble? [] [] statements
  pure (Nodes.toFields fields)

end OntologyCompiler.Toml
