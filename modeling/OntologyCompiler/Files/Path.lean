import OntologyCompiler.Text.Pieces

/-!
# Paths

Paths are texts with slashes. Joining keeps what was written; comparing goes by components, in which
repeated and final slashes and inner single dots do not count.
-/

namespace OntologyCompiler.Path

/-- A path below another one; an absolute path stands alone. -/
def join (base path : String) : String :=
  if path.toList.head? = some '/' then path
  else if base.toList.isEmpty then path
  else if base.toList.getLast? = some '/' then base ++ path
  else base ++ ("/" ++ path)

/-- A component of a path, in the order in which paths compare. -/
inductive Component where
  | root
  | current
  | parent
  | normal (name : String)
  deriving DecidableEq, Repr, Inhabited

namespace Component

/-- The place of a kind of component in the order. -/
def rank : Component → Nat
  | .root => 0
  | .current => 1
  | .parent => 2
  | .normal _ => 3

/-- The name of a normal component. -/
def name : Component → String
  | .normal name => name
  | _ => ""

/-- Kinds in their listed order, normal components by name. -/
instance : Ord Component := ⟨compareLex (compareOn rank) (compareOn name)⟩

end Component

/-- The component of a piece between slashes. -/
def componentOf (piece : List Char) : Component :=
  if piece = ['.'] then .current
  else if piece = ['.', '.'] then .parent
  else .normal (String.ofList piece)

/-- The components of a path. A single dot counts only at the start of a relative path. -/
def components (path : String) : List Component :=
  let pieces := (Text.pieces '/' path.toList).map fun piece => (piece.isEmpty, componentOf piece)
  let inner := (pieces.filter fun p => !p.1).map Prod.snd
  let keep (cs : List Component) : List Component := cs.filter fun c => c ≠ .current
  if path.toList.head? = some '/' then .root :: keep inner
  else
    match pieces with
    | (false, .current) :: _ => .current :: keep inner
    | _ => keep inner

/-- A component as it is written. -/
def Component.text : Component → String
  | .root => ""
  | .current => "."
  | .parent => ".."
  | .normal name => name

/-- The path with given components. -/
def ofComponents (cs : List Component) : String :=
  if cs = [.root] then "/" else Text.join "/" (cs.map Component.text)

/-- The path with something added to its last component, if that is a name. -/
def extendName? (path addition : String) : Option String :=
  match (components path).reverse with
  | .normal name :: before => some (ofComponents (.normal (name ++ addition) :: before).reverse)
  | _ => none

/-- The order of paths by components. -/
def order (a b : String) : Ordering := compare (components a) (components b)

/-- The last component of a path, if it is a name. -/
def fileName? (path : String) : Option String :=
  match (components path).getLast? with
  | some (.normal name) => some name
  | _ => none

/-- The parts of a file name before and after its last dot; a dot at the start does not count. -/
def splitExtension (name : String) : String × Option String :=
  match Text.cut? '.' name.toList.reverse with
  | none => (name, none)
  | some (extension, stem) =>
    if stem.isEmpty then (name, none)
    else (String.ofList stem.reverse, some (String.ofList extension.reverse))

/-- A file name without its extension. -/
def stem (name : String) : String := (splitExtension name).1

/-- The extension of a file name. -/
def extension? (name : String) : Option String := (splitExtension name).2

end OntologyCompiler.Path
