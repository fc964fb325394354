import OntologyCompiler.Backend.Naming
import OntologyCompiler.Generation.Engine
import OntologyCompiler.Ordered.Set
import OntologyCompiler.Text.Blank

/-!
# Generated modules

A Python module put together piece by piece: a header, sibling modules to import, and blocks of code.
Siblings that hold base classes are imported at the top. Others are imported at the top too, unless
they are also put off, which moves them to the tail. Blocks are ordered by rank and depth.
-/

namespace OntologyCompiler

/-- A block of code with its place in the module. -/
structure CodeBlock where
  rank : Nat
  depth : Nat
  text : String
  deriving DecidableEq, Repr, Inhabited

/-- A module under construction. -/
structure CodeModule where
  header : List String
  /-- Siblings needed when classes are defined. -/
  eager : OrderedSet String
  /-- Siblings imported at the top unless they are deferred. -/
  imports : OrderedSet String
  /-- Siblings imported at the tail unless they are eager. -/
  deferred : OrderedSet String
  blocks : List CodeBlock
  deriving DecidableEq

namespace CodeModule

/-- A module with a header and nothing else. -/
def new (header : List String) : CodeModule := ⟨header, ∅, ∅, ∅, []⟩

/-- The siblings imported at the top. -/
def topImports (m : CodeModule) : OrderedSet String := m.eager.union (m.imports.difference m.deferred)

/-- The siblings imported at the tail. -/
def tailImports (m : CodeModule) : OrderedSet String := m.deferred.difference m.topImports

/-- The order of blocks: by rank, then by depth. -/
def blockOrder (a b : CodeBlock) : Ordering := (compare a.rank b.rank).then (compare a.depth b.depth)

/-- The blocks in their final order; blocks in one place stay in the order in which they came. -/
def sortedBlocks (m : CodeModule) : List CodeBlock := m.blocks.mergeSort fun a b => (blockOrder a b).isLE

/-- The module with one more block. -/
def push (m : CodeModule) (block : CodeBlock) : CodeModule := { m with blocks := m.blocks ++ [block] }

/-- The line that imports a sibling. -/
def importLine (sibling : String) : String := "from . import " ++ sibling

/-- The import lines at the top, after an empty line, if there are any. -/
def topText (m : CodeModule) : String :=
  if m.topImports.toList.isEmpty then ""
  else "\n" ++ Text.closeLines (m.topImports.toList.map importLine)

/-- The import lines at the tail, under a comment, if there are any. -/
def tailText (m : CodeModule) : String :=
  if m.tailImports.toList.isEmpty then ""
  else
    "\n\n# Circular imports\n" ++
      Text.closeLines (m.tailImports.toList.map fun s => importLine s ++ "  # noqa: E402")

/-- The text of the blocks, each after two line ends. -/
def blocksText (m : CodeModule) : String :=
  m.sortedBlocks.foldr (fun block rest => "\n\n" ++ (block.text ++ rest)) ""

/-- The text of the module. -/
def render (m : CodeModule) : String :=
  Text.join "\n" m.header ++ "\n" ++ m.topText ++ m.blocksText ++ m.tailText

/-- The docstring at the start of a module. -/
def docHeader (o : Ontology) (title : String) : List String := [
  "\"\"\"",
  ".. module:: " ++ title,
  "   :synopsis: " ++ o.name ++ " v" ++ o.version ++ ".",
  "",
  "   Auto-generated, do not edit.",
  "\"\"\""]

end CodeModule

namespace Docstring

/-- Three quotes in a row become three apostrophes, from left to right. -/
def softenChars : List Char → List Char
  | '"' :: '"' :: '"' :: rest => '\'' :: '\'' :: '\'' :: softenChars rest
  | c :: rest => c :: softenChars rest
  | [] => []

/-- The text between the delimiters of a docstring. -/
def body (doc : String) : String :=
  let text := Text.trim doc.toList
  if text.isEmpty then "No documentation." else String.ofList (softenChars text)

/-- A docstring, its closing delimiter on a line of its own. -/
def render (doc indent : String) : String :=
  indent ++ "\"\"\"" ++ body doc ++ "\n" ++ indent ++ "\"\"\""

end Docstring

/-- The modules under construction, by package name. -/
abbrev CodeModules := OrderedMap String CodeModule

namespace CodeModules

/-- The module of a package, an empty one if none has been opened. -/
def get (ms : CodeModules) (package : String) : CodeModule := (ms.get? package).getD (CodeModule.new [])

/-- The modules with that of a package changed. -/
def update (ms : CodeModules) (package : String) (f : CodeModule → CodeModule) : CodeModules :=
  ms.insert package (f (ms.get package))

/-- The directory of an ontology below the root of the output. -/
def directory (o : Ontology) : String :=
  Path.join (Naming.snake o.name) (Naming.versionDirectory o.version)

/-- One emission per module, in order of package names. -/
def emissions (ms : CodeModules) (o : Ontology) (suffix : String) : List Emission :=
  ms.entries.map fun e => ⟨e.2.render, directory o, Naming.fileName e.1 suffix⟩

end CodeModules

/-- What a backend has gathered in a run: modules, and the lines of a listing. -/
structure Draft where
  modules : CodeModules
  listing : List String
  deriving DecidableEq

/-- Nothing gathered. -/
def Draft.empty : Draft := ⟨∅, []⟩

end OntologyCompiler
