/-!
# Reactive.Graph — which derived values depend on which properties

A `DependencyGraph` groups derived values by the property they are computed from.  A derived value is exposed as a
property, which may be a source in turn; `DependencyGraph.propagation` lists every derived value that a write to a
property affects, each behind those of them that it is computed from.
-/

namespace Reactive

/-- The number of a property of a class. -/
abbrev PropertyId := Nat

/-- The number of a derived value of a class. -/
abbrev DerivedId := Nat

/-- The derived values that are computed from one property. -/
structure DependencyGroup where
  source : PropertyId
  targets : List DerivedId
deriving DecidableEq, Repr

/-- Groups of derived values, in the order in which their sources were first seen. -/
structure DependencyGraph where
  groups : List DependencyGroup
deriving DecidableEq, Repr

namespace DependencyGraph

/-- No dependencies. -/
def empty : DependencyGraph := ⟨[]⟩

instance : Inhabited DependencyGraph := ⟨empty⟩

/-- The derived values computed directly from a property. -/
def dependents (g : DependencyGraph) (source : PropertyId) : List DerivedId :=
  ((g.groups.find? (·.source = source)).map DependencyGroup.targets).getD []

/-- One more dependency in a list of groups. -/
def addTo (source : PropertyId) (target : DerivedId) : List DependencyGroup → List DependencyGroup
  | [] => [⟨source, [target]⟩]
  | group :: rest =>
    if group.source = source then
      (if group.targets.contains target then group else ⟨source, group.targets ++ [target]⟩) :: rest
    else group :: addTo source target rest

/-- The graph with one more dependency; a second one of the same kind changes nothing. -/
def addEdge (g : DependencyGraph) (source : PropertyId) (target : DerivedId) : DependencyGraph :=
  ⟨addTo source target g.groups⟩

/-- The graph of a list of dependencies. -/
def ofEdges (edges : List (PropertyId × DerivedId)) : DependencyGraph :=
  edges.foldl (fun g e => g.addEdge e.1 e.2) empty

section

variable (g : DependencyGraph) (propertyOf : DerivedId → PropertyId)

/-- The derived values reached when those of `queue` are followed in turn, `reached` being those known before. -/
def follow : Nat → List PropertyId → List DerivedId → List DerivedId
  | 0, _, reached => reached
  | _ + 1, [], reached => reached
  | fuel + 1, source :: queue, reached =>
    let fresh := (g.dependents source).filter (!reached.contains ·)
    follow fuel (queue ++ fresh.map propertyOf) (reached ++ fresh)

/-- All dependencies, counted. -/
def size : Nat := g.groups.foldr (fun group n => group.targets.length + n) 0

/-- The derived values that a write to a property affects, in the order in which they are discovered. -/
def affected (source : PropertyId) : List DerivedId := follow g propertyOf (g.size + 1) [source] []

/-- No derived value of the list has `d` among its dependents. -/
def isReady (pending : List DerivedId) (d : DerivedId) : Bool :=
  pending.all fun p => !(g.dependents (propertyOf p)).contains d

/-- The derived values of a list, each behind those of them that it is computed from; what lies on a cycle, or behind
one, is left out. -/
def settle : Nat → List DerivedId → List DerivedId
  | 0, _ => []
  | fuel + 1, pending =>
    match pending.find? (isReady g propertyOf pending) with
    | some d => d :: settle fuel (pending.erase d)
    | none => []

/-- The derived values that a write to a property affects, each behind those of them that it is computed from, and
otherwise in the order in which they are discovered. -/
def propagation (source : PropertyId) : List DerivedId :=
  let reached := affected g propertyOf source
  settle g propertyOf reached.length reached

end

end DependencyGraph

end Reactive
