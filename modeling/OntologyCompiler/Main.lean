import OntologyCompiler.CommandLine.Program

/-!
# Running the programs

The outer layer of the command line. It records as a file tree what stands at the places that a program
looks at, asks the library for the plan, and carries the plan out on the disk. Nothing is decided here.
-/

namespace OntologyCompiler.Disk

/-- What stands at a path of the disk. What cannot be read counts as missing. -/
def node? (path : String) : IO (Option FileNode) := do
  try
    let place ← IO.FS.realPath path
    if ← place.isDir then pure (some .directory)
    else
      let bytes ← IO.FS.readBinFile place
      pure (some (.file (.ofBytes bytes.toList)))
  catch _ => pure none

/-- Records what stands at a location. -/
def observeAt (t : FileTree) (location : List String) : IO FileTree := do
  if (t.node? location).isSome then pure t
  else
    match ← node? ("/" ++ Text.join "/" location) with
    | some node => pure (t.put location node)
    | none => pure t

/-- Records what stands along pieces of a path. -/
def observeAlong (t : FileTree) (location : List String) : List String → IO FileTree
  | [] => pure t
  | piece :: rest =>
    match t.step? location piece with
    | none => pure t
    | some next => do observeAlong (← observeAt t next) next rest

/-- Records what stands along a path and at its end. -/
def observe (t : FileTree) (path : String) : IO FileTree :=
  match t.pieces? path with
  | none => pure t
  | some (start, pieces) => observeAlong t start pieces

/-- The names of the entries of a directory of the disk. -/
def names (path : String) : IO (List String) := do
  try
    let entries ← (← IO.FS.realPath path).readDir
    pure (entries.toList.map fun entry => entry.fileName)
  catch _ => pure []

/-- Records a path and, down to a depth, what stands below it. -/
def observeBelow (t : FileTree) (path : String) : Nat → IO FileTree
  | 0 => observe t path
  | depth + 1 => do
    let t ← observe t path
    if t.isDirectory path then
      (← names path).foldlM (fun t name => observeBelow t (Path.join path name) depth) t
    else pure t

/-- An empty record of the disk, seen from the working directory. -/
def here : IO FileTree := do
  let path := (← IO.currentDir).toString
  pure (FileTree.empty (((Text.pieces '/' path.toList).filter fun piece => !piece.isEmpty).map String.ofList))

/-- The variables of the environment. -/
def environment : IO (List EnvironmentVariable) := do
  try
    let bytes ← IO.FS.readBinFile "/proc/self/environ"
    pure (EnvironmentVariable.ofBlock (FileContents.ofBytes bytes.toList).lossyText)
  catch _ => pure []

/-- What an invocation finds around it: the places of its configuration and the directory of its schema. -/
def surroundings (i : Invocation) : IO Surroundings := do
  let environment ← environment
  let userFile := Configuration.userFile? environment
  let start ← here
  let t ← (Configuration.allPlaces start userFile i.config).foldlM observe start
  let around : Surroundings := ⟨t, environment, userFile⟩
  match i.configuration around with
  | .error _ => pure around
  | .ok c =>
    let directory := Path.join (i.schemaDirectory c) i.schema
    pure { around with tree := ← observeBelow t directory 2 }

/-- Writes an emission below a root directory. -/
def write (root : String) (e : Emission) : IO Unit := do
  let directory := Path.join root e.directory
  IO.FS.createDirAll directory
  IO.FS.writeFile (Path.join directory e.filename) e.content

/-- Carries out a plan. -/
def carryOut : Plan → IO Outcome
  | .finished outcome => pure outcome
  | .emitting output root emissions closing => do
    try
      for e in emissions do write root e
      pure ⟨0, output ++ closing, ""⟩
    catch _ => pure (.failed output "" .files)

/-- How the programs are called. -/
def usage : String := "usage: (generate | validate) -s SCHEMA [flags]"

/-- Says how the programs are called. -/
def refuse : IO UInt32 := do
  IO.eprintln usage
  pure Outcome.misused.code.toUInt32

/-- Runs a program with its arguments. -/
def run (program : Program) (arguments : List String) : IO UInt32 :=
  match Invocation.read? program arguments with
  | none => refuse
  | some i => do
    let outcome ← carryOut (program.plan i (← surroundings i))
    IO.print outcome.output
    IO.eprint outcome.errors
    pure outcome.code.toUInt32

end OntologyCompiler.Disk

/-- The first argument names the program, the others are its own. -/
def main (arguments : List String) : IO UInt32 :=
  match arguments with
  | "generate" :: rest => OntologyCompiler.Disk.run .generate rest
  | "validate" :: rest => OntologyCompiler.Disk.run .validate rest
  | _ => OntologyCompiler.Disk.refuse
