import OntologyCompiler.Files.Path
import OntologyCompiler.Generation.Emission
import OntologyCompiler.Text.Utf8

/-!
# File trees

A file system as a value: what stands at which absolute path, and the working directory from which
relative paths start. Paths are followed component by component; every component but the last must be
a directory.
-/

namespace OntologyCompiler

/-- What a file holds: text, or bytes that are not UTF-8. -/
inductive FileContents where
  | text (value : String)
  | bytes (value : List UInt8)
  deriving DecidableEq, Inhabited

namespace FileContents

/-- The contents of a list of bytes. -/
def ofBytes (bytes : List UInt8) : FileContents :=
  match Text.ofUtf8? bytes with
  | some s => .text s
  | none => .bytes bytes

/-- The text of a file that holds text. -/
def text? : FileContents → Option String
  | .text s => some s
  | .bytes _ => none

/-- The text of a file, faulty bytes replaced. -/
def lossyText : FileContents → String
  | .text s => s
  | .bytes b => Text.ofUtf8Lossy b

end FileContents

/-- What stands at a path. -/
inductive FileNode where
  | directory
  | file (contents : FileContents)
  deriving DecidableEq, Inhabited

/-- A file system with a working directory. The root directory is always there. -/
structure FileTree where
  nodes : OrderedMap (List String) FileNode
  workingDirectory : List String
  deriving DecidableEq

namespace FileTree

/-- What stands at an absolute location. -/
def node? (t : FileTree) (location : List String) : Option FileNode :=
  if location = [] then some .directory else t.nodes.get? location

/-- Whether a directory stands at a location. -/
def isDirectoryAt (t : FileTree) (location : List String) : Bool := t.node? location = some .directory

/-- The longest name of a file, in bytes. -/
def maxNameLength : Nat := 255

/-- Paths must be shorter than this, in bytes. -/
def maxPathLength : Nat := 4096

/-- Whether a file may have a name. -/
def isValidName (name : String) : Bool := name.utf8ByteSize ≤ maxNameLength

/-- The pieces of a path between slashes and where it starts, unless no file system accepts the path. -/
def pieces? (t : FileTree) (path : String) : Option (List String × List String) :=
  let cs := path.toList
  if cs.isEmpty || cs.contains (Char.ofNat 0) || maxPathLength ≤ path.utf8ByteSize then none
  else
    let start := if cs.head? = some '/' then [] else t.workingDirectory
    some (start, (Text.pieces '/' cs).map String.ofList)

/-- One step along a path from a directory. Empty pieces and single dots stay. -/
def step? (t : FileTree) (location : List String) (piece : String) : Option (List String) :=
  if !t.isDirectoryAt location then none
  else if piece = "" ∨ piece = "." then some location
  else if piece = ".." then some location.dropLast
  else if isValidName piece then some (location ++ [piece])
  else none

/-- Steps along all pieces. -/
def follow? (t : FileTree) (location : List String) : List String → Option (List String)
  | [] => some location
  | piece :: rest => (t.step? location piece).bind fun next => t.follow? next rest

/-- The location that a path leads to. Nothing need stand there. -/
def locate? (t : FileTree) (path : String) : Option (List String) :=
  (t.pieces? path).bind fun (start, pieces) => t.follow? start pieces

/-- What stands where a path leads. -/
def at? (t : FileTree) (path : String) : Option FileNode := (t.locate? path).bind t.node?

/-- Whether a path leads to a directory. -/
def isDirectory (t : FileTree) (path : String) : Bool := t.at? path = some .directory

/-- What the file at a path holds. -/
def contents? (t : FileTree) (path : String) : Option FileContents :=
  match t.at? path with
  | some (.file contents) => some contents
  | _ => none

/-- Whether a path leads to a file. -/
def isFile (t : FileTree) (path : String) : Bool := (t.contents? path).isSome

/-- The text of the file at a path. -/
def readText (t : FileTree) (path : String) : Except CompileError String :=
  match (t.contents? path).bind FileContents.text? with
  | some s => .ok s
  | none => .error .files

/-- The name of an entry directly below a location. -/
def childName? (location entry : List String) : Option String :=
  if entry.dropLast = location then entry.getLast? else none

/-- The working directory as a path. -/
def workingPath (t : FileTree) : String := "/" ++ Text.join "/" t.workingDirectory

/-- The names and nodes directly below the directory at a path, in order of names. -/
def list (t : FileTree) (path : String) : List (String × FileNode) :=
  match t.locate? path with
  | none => []
  | some location =>
    t.nodes.entries.filterMap fun e => (childName? location e.1).map fun name => (name, e.2)

/-- The tree with a node put at a location. -/
def put (t : FileTree) (location : List String) (node : FileNode) : FileTree :=
  { t with nodes := t.nodes.insert location node }

/-- Creates the directories along pieces that are not there. What was made before a failure stays. -/
def makeAlong (t : FileTree) (location : List String) : List String → Except CompileError Unit × FileTree
  | [] => (if t.isDirectoryAt location then .ok () else .error .files, t)
  | piece :: rest =>
    match t.step? location piece with
    | none => (.error .files, t)
    | some next =>
      match t.node? next with
      | some _ => makeAlong t next rest
      | none => makeAlong (t.put next .directory) next rest

/-- The pieces before the empty ones and single dots at the end. -/
def withoutFinalDots (pieces : List String) : List String :=
  (pieces.reverse.dropWhile fun piece => piece = "" ∨ piece = ".").reverse

/-- Creates a directory and those above it. The empty path needs none. A path that ends in a single dot
names an entry of its directory, so that directory must be there already: only those above it are made. -/
def makeDirectories (t : FileTree) (path : String) : Except CompileError Unit × FileTree :=
  if path = "" then (.ok (), t)
  else
    match t.pieces? path with
    | none => (.error .files, t)
    | some (start, pieces) =>
      if (pieces.filter (· ≠ "")).getLast? = some "." then
        match t.makeAlong start (withoutFinalDots pieces).dropLast with
        | (.error failure, t) => (.error failure, t)
        | (.ok (), t) => (if t.isDirectory path then .ok () else .error .files, t)
      else t.makeAlong start pieces

/-- The location of a file to be written: its name is the last piece and its directory must be there. -/
def target? (t : FileTree) (path : String) : Option (List String) :=
  (t.pieces? path).bind fun (start, pieces) =>
    let name := pieces.getLast?.getD ""
    if name = "" ∨ name = "." ∨ name = ".." then none
    else (t.follow? start pieces).bind fun location =>
      if t.isDirectoryAt location then none else some location

/-- Writes a file. -/
def writeFile (t : FileTree) (path : String) (contents : FileContents) : Except CompileError FileTree :=
  match t.target? path with
  | some location => .ok (t.put location (.file contents))
  | none => .error .files

/-- The paths of the files below the working directory, relative to it, with their contents. -/
def filesBelow (t : FileTree) : List (String × FileContents) :=
  t.nodes.entries.filterMap fun e =>
    match e.2 with
    | .directory => none
    | .file contents =>
      if t.workingDirectory.isPrefixOf e.1 then
        some (Text.join "/" (e.1.drop t.workingDirectory.length), contents)
      else none

/-- An empty file system with a working directory. -/
def empty (workingDirectory : List String) : FileTree :=
  let ancestors := (List.range workingDirectory.length).map fun n => workingDirectory.take (n + 1)
  ⟨OrderedMap.ofList (ancestors.map fun location => (location, .directory)), workingDirectory⟩

end FileTree

/-- Writes emissions as files below a root directory, which is made if it is not there. -/
def Writer.files (root : String) : Writer FileTree where
  write e t :=
    let directory := Path.join root e.directory
    match t.makeDirectories directory with
    | (.error failure, t) => (.error failure, t)
    | (.ok (), t) =>
      match t.writeFile (Path.join directory e.filename) (.text e.content) with
      | .ok t => (.ok (), t)
      | .error failure => (.error failure, t)

end OntologyCompiler
