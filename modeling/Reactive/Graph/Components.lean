/-!
# Reactive.Graph.Components — strongly connected components

`Digraph.components` lists the strongly connected components of a finite directed graph.  A depth-first search gives
the vertices in the order in which they are finished; a component stands where its last vertex is finished, so it comes
behind every component that can be reached from it.
-/

namespace Reactive

/-- The successors of each vertex, the vertices being the indices. -/
abbrev Digraph := List (List Nat)

namespace Digraph

/-- The successors of a vertex. -/
def successors (g : Digraph) (v : Nat) : List Nat := g[v]?.getD []

/-- A depth-first search: the vertices met so far, and those finished, in order. -/
structure Search where
  met : List Nat
  finished : List Nat
deriving DecidableEq, Repr

/-- The search after a visit of `v`, which goes at most `depth` edges deep. -/
def visit (g : Digraph) : Nat → Search → Nat → Search
  | 0, s, _ => s
  | depth + 1, s, v =>
    if s.met.contains v then s
    else
      let s := (g.successors v).foldl (visit g depth) { s with met := v :: s.met }
      { s with finished := s.finished ++ [v] }

/-- The vertices in the order in which a search from all of them finishes them. -/
def finishOrder (g : Digraph) : List Nat :=
  ((List.range g.length).foldl (visit g (g.length + 1)) ⟨[], []⟩).finished

/-- The vertices that can be reached from `v`, itself included. -/
def reachable (g : Digraph) (v : Nat) : List Nat := (visit g (g.length + 1) ⟨[], []⟩ v).finished

/-- Each vertex can be reached from the other. -/
def connected (g : Digraph) (v w : Nat) : Bool := (g.reachable v).contains w && (g.reachable w).contains v

/-- The component of a vertex, in increasing order. -/
def component (g : Digraph) (v : Nat) : List Nat := (List.range g.length).filter (g.connected v)

/-- The components of the vertices of a list, each where its last vertex stands. -/
def componentsOf (g : Digraph) : List Nat → List (List Nat)
  | [] => []
  | v :: later => if later.any (g.connected v) then componentsOf g later else g.component v :: componentsOf g later

/-- The strongly connected components, each behind those that can be reached from it. -/
def components (g : Digraph) : List (List Nat) := g.componentsOf g.finishOrder

/-- A component is a cycle: it has several vertices, or one with an edge to itself. -/
def isCyclic (g : Digraph) : List Nat → Bool
  | [] => false
  | [v] => (g.successors v).contains v
  | _ => true

example : components [[1], [2], [1], [3]] = [[1, 2], [0], [3]] := by decide

end Digraph

end Reactive
