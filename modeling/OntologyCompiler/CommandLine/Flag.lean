import OntologyCompiler.Text.Pieces

/-!
# Flags

The arguments of a program: switches, and flags with a value. A value may be attached to its flag or
follow it as the next argument; one that follows must not look like a flag itself. A flag stands at most
once, and there are no other arguments.
-/

namespace OntologyCompiler

/-- What a flag takes. -/
inductive FlagKind where
  | switch
  | text
  /-- A text that is not empty. -/
  | path
  deriving DecidableEq, Repr, Inhabited

/-- A flag of a program. -/
structure Flag where
  name : String
  letter : Option Char
  kind : FlagKind
  deriving DecidableEq, Repr, Inhabited

/-- The flags found among arguments, with their values. Switches have the empty value. -/
abbrev FlagValues := List (String × String)

namespace Flag

/-- Whether a flag takes a value. -/
def accepts (f : Flag) (value : String) : Bool := f.kind != .path || value != ""

/-- The flag that an argument names, and the value attached to it. -/
def ofArgument? (flags : List Flag) (argument : String) : Option (Flag × Option String) :=
  match argument.toList with
  | '-' :: '-' :: rest =>
    let (name, value) :=
      match Text.cut? '=' rest with
      | some (name, value) => (name, some (String.ofList value))
      | none => (rest, none)
    (flags.find? fun f => f.name == String.ofList name).map fun f => (f, value)
  | '-' :: letter :: rest =>
    let value :=
      match rest with
      | [] => none
      | '=' :: value => some (String.ofList value)
      | value => some (String.ofList value)
    (flags.find? fun f => f.letter == some letter).map fun f => (f, value)
  | _ => none

/-- Whether an argument can be the value of the flag before it. A single dash can. -/
def isValue (argument : String) : Bool :=
  match argument.toList with
  | '-' :: _ :: _ => false
  | _ => true

/-- Reads arguments as flags. Two dashes may end them. -/
def readAll? (flags : List Flag) : List String → Option FlagValues
  | [] => some []
  | argument :: rest =>
    if argument = "--" then (if rest.isEmpty then some [] else none)
    else
      match ofArgument? flags argument with
      | none => none
      | some (f, attached) =>
        match f.kind, attached, rest with
        | .switch, none, rest => (readAll? flags rest).map fun found => (f.name, "") :: found
        | .switch, some _, _ => none
        | _, some value, rest =>
          if f.accepts value then (readAll? flags rest).map fun found => (f.name, value) :: found else none
        | _, none, [] => none
        | _, none, value :: rest =>
          if isValue value && f.accepts value then
            (readAll? flags rest).map fun found => (f.name, value) :: found
          else none

/-- Reads arguments as flags that stand at most once each. -/
def read? (flags : List Flag) (arguments : List String) : Option FlagValues :=
  (readAll? flags arguments).filter fun found => (found.map Prod.fst).Nodup

end Flag

end OntologyCompiler
