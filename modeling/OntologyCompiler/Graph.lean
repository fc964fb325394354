/-!
# Directed graphs

Depth first search over a graph given by a list of nodes and a successor function, and its strongly
connected components. Components come in the order in which their last member is finished, so a
component comes after those that it reaches.
-/

namespace OntologyCompiler

/-- A finite directed graph; successors are visited in the listed order. -/
structure Digraph (α : Type) where
  nodes : List α
  successors : α → List α

namespace Digraph

variable {α : Type} [DecidableEq α]

/-- The nodes met and the nodes finished by a search, the latter in order. -/
structure Search (α : Type) where
  started : List α
  finished : List α

/-- Visits a node and what can be reached from it without meeting a node again. -/
def visit (g : Digraph α) : Nat → Search α → α → Search α
  | 0, s, _ => s
  | fuel + 1, s, v =>
    if v ∈ s.started then s
    else
      let inner := (g.successors v).foldl (visit g fuel) { s with started := v :: s.started }
      { inner with finished := inner.finished ++ [v] }

/-- The nodes in the order in which a depth first search finishes them. A path without repetition is no
longer than the list of nodes, which bounds the depth. -/
def postorder (g : Digraph α) : List α :=
  (g.nodes.foldl (g.visit (g.nodes.length + 1)) ⟨[], []⟩).finished

/-- The nodes of a list and their successors. -/
def grow (g : Digraph α) (s : List α) : List α :=
  (s.flatMap g.successors).foldl (fun acc v => if v ∈ acc then acc else acc ++ [v]) s

/-- The nodes that can be reached in a bounded number of steps. -/
def growFor (g : Digraph α) : Nat → List α → List α
  | 0, s => s
  | n + 1, s => growFor g n (g.grow s)

/-- The nodes that can be reached from a node, itself included. -/
def reach (g : Digraph α) (v : α) : List α := g.growFor g.nodes.length [v]

/-- Whether two nodes reach each other. -/
def connected (g : Digraph α) (v w : α) : Bool := w ∈ g.reach v && v ∈ g.reach w

/-- The classes of a relation on a list, each at the place of its last member. -/
def classesAtLast (same : α → α → Bool) (all : List α) : List α → List (List α)
  | [] => []
  | v :: rest =>
    if rest.any (same v) then classesAtLast same all rest
    else all.filter (same v) :: classesAtLast same all rest

/-- The strongly connected components, each after those that it reaches. -/
def components (g : Digraph α) : List (List α) :=
  classesAtLast g.connected g.postorder g.postorder

end Digraph

end OntologyCompiler
