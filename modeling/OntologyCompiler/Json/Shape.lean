import OntologyCompiler.Json.Token

/-!
# Reading text into a shape

A shape says which kind of value is asked for at each place. Reading goes from left to right and stops
at the first token that does not fit, so of a misplaced value and a broken token the earlier one is
reported. A record may also stand as a list of its fields in order, fields that it does not name are
passed over, and a field that it names may come only once. Values nest to a bounded depth, except in
what is passed over.
-/

namespace OntologyCompiler

/-- The kind of value asked for. -/
inductive Shape where
  | any
  | text
  | optional (inner : Shape)
  | list (item : Shape)
  | mapping (value : Shape)
  | record (fields : List (String × Shape))
  deriving Inhabited

namespace Shape

/-- What stands next in a list or an object: its end and the tokens after it, or one more element. -/
inductive Next (α : Type) where
  | closed (rest : List JsonToken)
  | more (element : α)

/-- Lists and objects may stand inside one another this many times, less one. -/
def maxDepth : Nat := 128

/-- The failure of a token that starts a value of another kind than the one asked for. -/
def misplaced : JsonToken → ReadFailure
  | .word (.error fault) => fault
  | .word (.ok _) => .mistyped
  | .number (.error fault) _ => fault
  | .number (.ok _) _ => .mistyped
  | .text (.error fault) _ => fault
  | .text (.ok _) _ => .mistyped
  | .openList => .mistyped
  | .openObject => .mistyped
  | .closeList => .malformed
  | .closeObject => .malformed
  | .comma => .malformed
  | .colon => .malformed
  | .stray => .malformed

/-- The tokens from the next item of a list on, or those after its end. -/
def nextItem (first : Bool) (tokens : List JsonToken) :
    Except ReadFailure (Next (List JsonToken)) :=
  match tokens with
  | [] => .error .unfinished
  | .closeList :: rest => .ok (.closed rest)
  | .comma :: rest =>
    if first then .ok (.more tokens)
    else
      match rest with
      | [] => .error .unfinished
      | .closeList :: _ => .error .malformed
      | _ => .ok (.more rest)
  | _ => if first then .ok (.more tokens) else .error .malformed

/-- The name of a field and the tokens after it; a loosely read name is passed over. -/
def fieldName (loose : Bool) (tokens : List JsonToken) :
    Except ReadFailure (Next (String × List JsonToken)) :=
  match tokens with
  | [] => .error .unfinished
  | .text strict relaxed :: rest =>
    if loose then relaxed.map fun _ => .more ("", rest)
    else strict.map fun name => .more (name, rest)
  | _ => .error .malformed

/-- The next field of an object, or the tokens after its end. -/
def nextField (loose first : Bool) (tokens : List JsonToken) :
    Except ReadFailure (Next (String × List JsonToken)) :=
  match tokens with
  | [] => .error .unfinished
  | .closeObject :: rest => .ok (.closed rest)
  | .comma :: rest => if first then .error .malformed else fieldName loose rest
  | _ => if first then fieldName loose tokens else .error .malformed

/-- The tokens after a colon. -/
def afterColon : List JsonToken → Except ReadFailure (List JsonToken)
  | [] => .error .unfinished
  | .colon :: rest => .ok rest
  | _ => .error .malformed

mutual

/-- Passes over a value of any kind and depth. -/
def skip : Nat → List JsonToken → Except ReadFailure (List JsonToken)
  | 0, _ => .error .unfinished
  | fuel + 1, tokens =>
    match tokens with
    | [] => .error .unfinished
    | .word value :: rest => value.map fun _ => rest
    | .number _ loose :: rest => loose.map fun _ => rest
    | .text _ loose :: rest => loose.map fun _ => rest
    | .openList :: rest => skipItems fuel true rest
    | .openObject :: rest => skipFields fuel true rest
    | _ => .error .malformed

/-- Passes over the items of a list. -/
def skipItems : Nat → Bool → List JsonToken → Except ReadFailure (List JsonToken)
  | 0, _, _ => .error .unfinished
  | fuel + 1, first, tokens => do
    match ← nextItem first tokens with
    | .closed rest => pure rest
    | .more tokens => skipItems fuel false (← skip fuel tokens)

/-- Passes over the fields of an object. -/
def skipFields : Nat → Bool → List JsonToken → Except ReadFailure (List JsonToken)
  | 0, _, _ => .error .unfinished
  | fuel + 1, first, tokens => do
    match ← nextField true first tokens with
    | .closed rest => pure rest
    | .more (_, tokens) => skipFields fuel false (← skip fuel (← afterColon tokens))

end

/-- Whether one more level of lists and objects may be entered. -/
def enter : Nat → Except ReadFailure Nat
  | 0 => .error .malformed
  | 1 => .error .malformed
  | depth + 2 => .ok (depth + 1)

mutual

/-- Reads a value of a shape. -/
def read : Nat → Nat → Shape → List JsonToken → Except ReadFailure (Json × List JsonToken)
  | 0, _, _, _ => .error .unfinished
  | _ + 1, _, _, [] => .error .unfinished
  | fuel + 1, depth, shape, token :: rest =>
    match shape, token with
    | .any, .word value => value.map fun v => (v, rest)
    | .any, .number strict _ => strict.map fun n => (.number n, rest)
    | .any, .text strict _ => strict.map fun s => (.text s, rest)
    | .any, .openList => do
      let (items, rest) ← readItems fuel (← enter depth) .any true rest
      pure (.list items, rest)
    | .any, .openObject => do
      let (fields, rest) ← readMapping fuel (← enter depth) .any true [] rest
      pure (.object fields, rest)
    | .any, _ => .error .malformed
    | .text, .text strict _ => strict.map fun s => (.text s, rest)
    | .optional _, .word (.ok .null) => .ok (.null, rest)
    | .optional inner, _ => read fuel depth inner (token :: rest)
    | .list item, .openList => do
      let (items, rest) ← readItems fuel (← enter depth) item true rest
      pure (.list items, rest)
    | .mapping value, .openObject => do
      let (fields, rest) ← readMapping fuel (← enter depth) value true [] rest
      pure (.object fields, rest)
    | .record fields, .openList => do
      let (items, rest) ← readFieldList fuel (← enter depth) (fields.map Prod.snd) true rest
      pure (.list items, rest)
    | .record fields, .openObject => do
      let (found, rest) ← readRecord fuel (← enter depth) fields true [] rest
      pure (.object found, rest)
    | _, token => .error (misplaced token)

/-- Reads the items of a list. -/
def readItems : Nat → Nat → Shape → Bool → List JsonToken → Except ReadFailure (List Json × List JsonToken)
  | 0, _, _, _, _ => .error .unfinished
  | fuel + 1, depth, item, first, tokens => do
    match ← nextItem first tokens with
    | .closed rest => pure ([], rest)
    | .more tokens =>
      let (head, rest) ← read fuel depth item tokens
      let (tail, rest) ← readItems fuel depth item false rest
      pure (head :: tail, rest)

/-- Reads the fields of an object with any names; the last value of a name stays. -/
def readMapping : Nat → Nat → Shape → Bool → List (String × Json) → List JsonToken →
    Except ReadFailure (List (String × Json) × List JsonToken)
  | 0, _, _, _, _, _ => .error .unfinished
  | fuel + 1, depth, value, first, found, tokens => do
    match ← nextField false first tokens with
    | .closed rest => pure (found, rest)
    | .more (name, tokens) =>
      let (v, rest) ← read fuel depth value (← afterColon tokens)
      readMapping fuel depth value false (OrderedMap.insertInto name v found) rest

/-- Reads the fields of a record. -/
def readRecord : Nat → Nat → List (String × Shape) → Bool → List (String × Json) → List JsonToken →
    Except ReadFailure (List (String × Json) × List JsonToken)
  | 0, _, _, _, _, _ => .error .unfinished
  | fuel + 1, depth, fields, first, found, tokens => do
    match ← nextField false first tokens with
    | .closed rest => pure (found, rest)
    | .more (name, tokens) =>
      match fields.lookup name with
      | none =>
        let rest ← skip fuel (← afterColon tokens)
        readRecord fuel depth fields false found rest
      | some shape =>
        if (found.map Prod.fst).contains name then throw .mistyped
        let (v, rest) ← read fuel depth shape (← afterColon tokens)
        readRecord fuel depth fields false (OrderedMap.insertInto name v found) rest

/-- Reads a record that stands as a list of its first fields. -/
def readFieldList : Nat → Nat → List Shape → Bool → List JsonToken → Except ReadFailure (List Json × List JsonToken)
  | 0, _, _, _, _ => .error .unfinished
  | _ + 1, _, [], _, tokens =>
    match tokens with
    | [] => .error .unfinished
    | .closeList :: rest => .ok ([], rest)
    | _ => .error .malformed
  | fuel + 1, depth, shape :: shapes, first, tokens => do
    match ← nextItem first tokens with
    | .closed rest => pure ([], rest)
    | .more tokens =>
      let (head, rest) ← read fuel depth shape tokens
      let (tail, rest) ← readFieldList fuel depth shapes false rest
      pure (head :: tail, rest)

end

/-- Reads a text that holds one value of a shape and nothing else. -/
def readText (shape : Shape) (s : String) : Except ReadFailure Json := do
  let tokens := JsonToken.ofText s
  let (value, rest) ← read (3 * tokens.length + 4) maxDepth shape tokens
  match rest with
  | [] => pure value
  | _ :: _ => throw .malformed

end Shape

/-- Reads a text that holds one JSON value. -/
def Json.ofText (s : String) : Except ReadFailure Json := Shape.any.readText s

end OntologyCompiler
