import OntologyCompiler.Number.Double
import OntologyCompiler.Ordered.Map

/-!
# JSON values

Loose values as they stand in a schema. A number is an integer of 64 bits, signed or unsigned, or a
double. The fields of an object read from text are in ascending order of their names, each name once.
-/

namespace OntologyCompiler

/-- Why a text or a value could not be read: the text ends too early, it is not JSON, or it holds a value
of another kind than the one asked for. -/
inductive ReadFailure where
  | unfinished
  | malformed
  | mistyped
  deriving DecidableEq, Repr, Inhabited

/-- A JSON number. -/
inductive JsonNumber where
  | integer (value : Int)
  | real (value : Double)
  deriving DecidableEq, Repr, Inhabited

/-- A JSON value. -/
inductive Json where
  | null
  | boolean (value : Bool)
  | number (value : JsonNumber)
  | text (value : String)
  | list (items : List Json)
  | object (fields : List (String × Json))
  deriving Inhabited

namespace Json

mutual

/-- Decides equality of two values. -/
def decideEq : (a b : Json) → Decidable (a = b)
  | .null, .null => isTrue rfl
  | .boolean a, .boolean b =>
    if h : a = b then isTrue (by rw [h]) else isFalse (by simp [h])
  | .number a, .number b =>
    if h : a = b then isTrue (by rw [h]) else isFalse (by simp [h])
  | .text a, .text b =>
    if h : a = b then isTrue (by rw [h]) else isFalse (by simp [h])
  | .list a, .list b =>
    match decideEqList a b with
    | isTrue h => isTrue (by rw [h])
    | isFalse h => isFalse (by simp [h])
  | .object a, .object b =>
    match decideEqFields a b with
    | isTrue h => isTrue (by rw [h])
    | isFalse h => isFalse (by simp [h])
  | .null, .boolean _ => isFalse (by simp)
  | .null, .number _ => isFalse (by simp)
  | .null, .text _ => isFalse (by simp)
  | .null, .list _ => isFalse (by simp)
  | .null, .object _ => isFalse (by simp)
  | .boolean _, .null => isFalse (by simp)
  | .boolean _, .number _ => isFalse (by simp)
  | .boolean _, .text _ => isFalse (by simp)
  | .boolean _, .list _ => isFalse (by simp)
  | .boolean _, .object _ => isFalse (by simp)
  | .number _, .null => isFalse (by simp)
  | .number _, .boolean _ => isFalse (by simp)
  | .number _, .text _ => isFalse (by simp)
  | .number _, .list _ => isFalse (by simp)
  | .number _, .object _ => isFalse (by simp)
  | .text _, .null => isFalse (by simp)
  | .text _, .boolean _ => isFalse (by simp)
  | .text _, .number _ => isFalse (by simp)
  | .text _, .list _ => isFalse (by simp)
  | .text _, .object _ => isFalse (by simp)
  | .list _, .null => isFalse (by simp)
  | .list _, .boolean _ => isFalse (by simp)
  | .list _, .number _ => isFalse (by simp)
  | .list _, .text _ => isFalse (by simp)
  | .list _, .object _ => isFalse (by simp)
  | .object _, .null => isFalse (by simp)
  | .object _, .boolean _ => isFalse (by simp)
  | .object _, .number _ => isFalse (by simp)
  | .object _, .text _ => isFalse (by simp)
  | .object _, .list _ => isFalse (by simp)

/-- Decides equality of two lists of values. -/
def decideEqList : (a b : List Json) → Decidable (a = b)
  | [], [] => isTrue rfl
  | [], _ :: _ => isFalse (by simp)
  | _ :: _, [] => isFalse (by simp)
  | a :: as, b :: bs =>
    match decideEq a b, decideEqList as bs with
    | isTrue h, isTrue t => isTrue (by rw [h, t])
    | isFalse h, _ => isFalse (by simp [h])
    | _, isFalse t => isFalse (by simp [t])

/-- Decides equality of the fields of two objects. -/
def decideEqFields : (a b : List (String × Json)) → Decidable (a = b)
  | [], [] => isTrue rfl
  | [], _ :: _ => isFalse (by simp)
  | _ :: _, [] => isFalse (by simp)
  | (k, a) :: as, (l, b) :: bs =>
    match decEq k l, decideEq a b, decideEqFields as bs with
    | isTrue g, isTrue h, isTrue t => isTrue (by rw [g, h, t])
    | isFalse g, _, _ => isFalse (by simp [g])
    | _, isFalse h, _ => isFalse (by simp [h])
    | _, _, isFalse t => isFalse (by simp [t])

end

instance : DecidableEq Json := decideEq

/-- The integer `n` as a value. -/
def int (n : Int) : Json := .number (.integer n)

/-- The text of a text value. -/
def text? : Json → Option String
  | .text s => some s
  | _ => none

/-- The truth value of a boolean. -/
def boolean? : Json → Option Bool
  | .boolean b => some b
  | _ => none

/-- The items of a list. -/
def list? : Json → Option (List Json)
  | .list items => some items
  | _ => none

/-- The fields of an object. -/
def object? : Json → Option (List (String × Json))
  | .object fields => some fields
  | _ => none

/-- The value of the first field with a name. -/
def field? (name : String) : List (String × Json) → Option Json
  | [] => none
  | (key, value) :: rest => if key = name then some value else field? name rest

/-- An object with its fields put in ascending order; of fields with one name the last one stays. -/
def ofFields (fields : List (String × Json)) : Json :=
  .object (OrderedMap.ofList fields).entries

end Json

end OntologyCompiler
