import OntologyCompiler.Toml.Literal
import OntologyCompiler.Toml.Quoted
import OntologyCompiler.Toml.Tree

/-!
# Keys and values of TOML

A key is one name or several with dots between them. A value is a string, a value without quotes, a
list, or a table on one line. Lists may run over several lines and end in a comma; tables on one line
may not. Values nest to a bounded depth, and so do keys.
-/

namespace OntologyCompiler.Toml

/-- How deep lists and tables may stand inside one another, and how many names a key may have. -/
def maxDepth : Nat := 79

/-- Whether a character may stand in a name without quotes. -/
def isBare (c : Char) : Bool := c.isAlphanum || c == '_' || c == '-'

/-- Reads a name. -/
def name? (cs : List Char) : Option (String × List Char) :=
  match cs with
  | '"' :: rest => (basic? (rest.length + 1) rest).map fun s => (String.ofList s.1, s.2)
  | '\'' :: rest => (literal? rest).map fun s => (String.ofList s.1, s.2)
  | _ =>
    let bare := cs.takeWhile isBare
    if bare.isEmpty then none else some (String.ofList bare, cs.dropWhile isBare)

/-- Reads names with dots between them, and the blanks around each. -/
def names? : Nat → List Char → Option (List String × List Char)
  | 0, _ => none
  | fuel + 1, cs => do
    let (name, rest) ← name? (skipBlanks cs)
    match skipBlanks rest with
    | '.' :: rest =>
      let (names, rest) ← names? fuel rest
      pure (name :: names, rest)
    | rest => pure ([name], rest)

/-- Reads a key as the names that lead to it and its own name. -/
def key? (cs : List Char) : Option ((List String × String) × List Char) := do
  let (names, rest) ← names? maxDepth cs
  pure ((names.dropLast, names.getLast?.getD ""), rest)

/-- A table on one line from its keys and values. -/
def inlineTable? (pairs : List ((List String × String) × Setting)) : Option Setting :=
  (pairs.foldlM (fun fields pair => Nodes.assign pair.1.1 pair.1.2 pair.2 fields) []).map fun fields =>
    .table (Nodes.toFields fields)

mutual

/-- Reads a value. -/
def value? : Nat → Nat → List Char → Option (Setting × List Char)
  | 0, _, _ => none
  | fuel + 1, depth, cs =>
    match cs with
    | '[' :: rest =>
      match depth with
      | 0 => none
      | depth + 1 => (items? fuel depth rest).map fun l => (.list l.1, l.2)
    | '\x7b' :: rest =>
      match depth with
      | 0 => none
      | depth + 1 => do
        let (pairs, rest) ← pairs? fuel depth true rest
        let t ← inlineTable? pairs
        pure (t, rest)
    | '"' :: _ => (quoted? cs).map fun s => (.text s.1, s.2)
    | '\'' :: _ => (quoted? cs).map fun s => (.text s.1, s.2)
    | _ => plain? cs

/-- Reads the items of a list behind its opening bracket or a comma. -/
def items? : Nat → Nat → List Char → Option (List Setting × List Char)
  | 0, _, _ => none
  | fuel + 1, depth, cs => do
    match ← skipGap? false cs with
    | ']' :: rest => pure ([], rest)
    | rest =>
      let (item, rest) ← value? fuel depth rest
      match ← skipGap? false rest with
      | ',' :: rest =>
        let (items, rest) ← items? fuel depth rest
        pure (item :: items, rest)
      | ']' :: rest => pure ([item], rest)
      | _ => none

/-- Reads the pairs of a table on one line behind its opening brace or a comma. -/
def pairs? : Nat → Nat → Bool → List Char → Option (List ((List String × String) × Setting) × List Char)
  | 0, _, _, _ => none
  | fuel + 1, depth, first, cs =>
    match skipBlanks cs with
    | '\x7d' :: rest => if first then some ([], rest) else none
    | rest => do
      let (key, rest) ← key? rest
      let rest ← Text.dropStart? ['='] rest
      let (v, rest) ← value? fuel depth (skipBlanks rest)
      match skipBlanks rest with
      | ',' :: rest =>
        let (pairs, rest) ← pairs? fuel depth false rest
        pure ((key, v) :: pairs, rest)
      | '\x7d' :: rest => pure ([(key, v)], rest)
      | _ => none

end

end OntologyCompiler.Toml
