import Reactive.Graph.Components

/-!
# Reactive.Graph.Tarjan — the components in one search

`Digraph.tarjan` finds the strongly connected components of a graph in one depth-first search.  A vertex is numbered when
it is entered, and stays on a stack until its component is complete.  Its low-link is the least number found so far among
the vertices of the stack that it leads to.  When all its edges have been followed and its low-link still is its own number,
it is the first vertex of its component, and the others stand above it on the stack.
-/

namespace Reactive

/-- How far the search has come; each table has one entry for each vertex. -/
structure Tarjan where
  /-- The number of the vertex that is entered next. -/
  next : Nat
  /-- The numbers of the vertices that have been entered. -/
  numbers : List (Option Nat)
  /-- The low-links of the vertices that have been entered. -/
  lows : List Nat
  /-- The vertices that have been entered and are in no block, the last one first. -/
  stack : List Nat
  onStack : List Bool
  /-- The components that are complete. -/
  blocks : List (List Nat)
deriving DecidableEq, Repr

namespace Tarjan

/-- The state before the search of a graph with `n` vertices. -/
def start (n : Nat) : Tarjan := ⟨0, .replicate n none, .replicate n 0, [], .replicate n false, []⟩

/-- Numbers a vertex and puts it on the stack. -/
def enter (s : Tarjan) (v : Nat) : Tarjan :=
  { s with
    next := s.next + 1
    numbers := s.numbers.set v (some s.next)
    lows := s.lows.set v s.next
    stack := v :: s.stack
    onStack := s.onStack.set v true }

/-- Lowers the low-link of a vertex to `i`, unless it is below already. -/
def lower (s : Tarjan) (v i : Nat) : Option Tarjan := do
  return { s with lows := s.lows.set v (min (← s.lows[v]?) i) }

/-- Takes vertices off a stack down to `v`: those taken, and those left. -/
def popTo (v : Nat) : List Nat → List Nat × List Nat
  | [] => ([], [])
  | w :: rest =>
    if w = v then ([w], rest)
    else
      let (popped, left) := popTo v rest
      (w :: popped, left)

/-- The vertices of the stack down to `v` become a block. -/
def close (s : Tarjan) (v : Nat) : Tarjan :=
  let (block, rest) := popTo v s.stack
  { s with
    stack := rest
    onStack := block.foldl (fun table w => table.set w false) s.onStack
    blocks := s.blocks ++ [block] }

/-- Closes a block if the low-link of its last vertex, which is `v`, is the number of it. -/
def leave (s : Tarjan) (v : Nat) : Option Tarjan := do
  if some (← s.lows[v]?) = (← s.numbers[v]?) then return s.close v else return s

/-- Follows an edge from `v` to `w`, which is visited if it has not been entered. -/
def follow (visit : Tarjan → Nat → Option Tarjan) (v : Nat) (s : Tarjan) (w : Nat) : Option Tarjan := do
  match ← s.numbers[w]? with
  | none =>
    let s ← visit s w
    s.lower v (← s.lows[w]?)
  | some i => if ← s.onStack[w]? then s.lower v i else return s

/-- Visits a vertex that has not been entered, with at most `depth` visits inside each other, this one included.  There is
no result if that is not enough, or if an edge leads out of the graph. -/
def visit (g : Digraph) : Nat → Tarjan → Nat → Option Tarjan
  | 0, _, _ => none
  | depth + 1, s, v => do
    let s ← (← g[v]?).foldlM (follow (visit g depth) v) (s.enter v)
    s.leave v

/-- Visits a vertex unless it has been entered. -/
def visitNew (g : Digraph) (depth : Nat) (s : Tarjan) (v : Nat) : Option Tarjan := do
  match ← s.numbers[v]? with
  | none => visit g depth s v
  | some _ => return s

end Tarjan

namespace Digraph

/-- The strongly connected components, found with at most `depth` visits inside each other. -/
def tarjan (g : Digraph) (depth : Nat) : Option (List (List Nat)) := do
  return (← (List.range g.length).foldlM (Tarjan.visitNew g depth) (.start g.length)).blocks

end Digraph

end Reactive
