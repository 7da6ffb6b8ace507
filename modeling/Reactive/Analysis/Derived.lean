import Reactive.Analysis.Draft
import Reactive.Graph.Components

/-!
# Reactive.Analysis.Derived — derived values and their sources

Derived values are staged in the order of their declarations, their sources resolved against the table as it then is.
Then the announcements of other properties add sources, or values of which only changes are announced.  Values that are
computed from themselves, directly or through others, are rejected, and the rest get their numbers.
-/

namespace Reactive

namespace Expr

mutual

/-- A lambda occurs in the expression. -/
def containsLambda : Expr → Bool
  | lambda .. => true
  | literal .. | name .. | this _ => false
  | member o _ _ => containsLambda o
  | call c args _ => containsLambda c || anyLambda args
  | unary _ e _ => containsLambda e
  | binary _ l r _ => containsLambda l || containsLambda r
  | conditional c t e _ => containsLambda c || containsLambda t || containsLambda e

/-- A lambda occurs in one of the expressions. -/
def anyLambda : List Expr → Bool
  | [] => false
  | e :: es => containsLambda e || anyLambda es

end

/-- The name is the one of host helpers. -/
def isHost (name : String) : Bool := hostReceivers.contains name

mutual

/-- The first access to the instance that does not go through the parameter `param`. -/
def instanceRead? (param : String) : Expr → Option String
  | literal .. | lambda .. => none
  | this _ => some "this"
  | name n _ => if n == param || isHost n then none else some n
  | member (name r s) _ _ => if isHost r then none else instanceRead? param (name r s)
  | member o _ _ => instanceRead? param o
  | call (name n _) args _ => (if n == param then none else some n).or (firstInstanceRead? param args)
  | call c args _ => (instanceRead? param c).or (firstInstanceRead? param args)
  | unary _ e _ => instanceRead? param e
  | binary _ l r _ => (instanceRead? param l).or (instanceRead? param r)
  | conditional c t e _ => ((instanceRead? param c).or (instanceRead? param t)).or (instanceRead? param e)

/-- The first access to the instance in expressions. -/
def firstInstanceRead? (param : String) : List Expr → Option String
  | [] => none
  | e :: es => (instanceRead? param e).or (firstInstanceRead? param es)

end

/-- The helper in `helper.ToDefault()`, and any other expression as it is. -/
def helper : Expr → Expr
  | call (member object n s) [] s' => if n == "ToDefault" then object else call (member object n s) [] s'
  | e => e

end Expr

/-- How a staged value is computed. -/
inductive StagedRecompute
  | inline (body : Expr)
  | projection (param : String) (body : Expr) (function : String)
  | method (name : String)
deriving Repr

/-- A derived value without a number. -/
structure Staged where
  property : PropertyId
  name : String
  type : TypeRef
  origin : DerivedOrigin
  recompute : Option StagedRecompute
  cache : CachePolicy
  notifiesInitially : Bool
  slot : Option DerivedSlot
  sources : List PropertyId
  span : Span
deriving Repr

namespace Drafting

/-- Reports that the body of a member cannot be taken over. -/
def rejectBody {α : Type} (m : MemberDecl) (issue : BodyIssue) : Drafting (Option α) :=
  reject (.unsupportedBody m.name issue) m.nameSpan

/-- Reports that the arguments of an annotation do not go with the member. -/
def rejectArguments {α : Type} (m : MemberDecl) (a : Annotation) (issue : ArgumentIssue) : Drafting (Option α) :=
  reject (.invalidArguments a.kind.text m.name issue) a.span

/-! ### Staging -/

/-- How the getter of a property is computed. -/
def stagedBody (m : MemberDecl) (body : Expr) : Drafting (Option StagedRecompute) := do
  match body.staticProjection? with
  | some (param, projected) =>
    if projected.containsLambda then rejectBody m .nestedLambda
    else
      match projected.instanceRead? param with
      | some read => rejectBody m (.instanceRead read param)
      | none => return some (.projection param projected (Naming.projection m.name))
  | none =>
    if body.containsLambda then rejectBody m .lambdaOutsideProjection else return some (.inline body)

/-- What a derived value is, before its cache and its sources. -/
structure Target where
  property : PropertyId
  name : String
  type : TypeRef
  origin : DerivedOrigin
  recompute : Option StagedRecompute
  reads : List Expr.Read

/-- What a derived property is. -/
def propertyTarget (m : MemberDecl) (p : PropertyDecl) (a : Annotation) (cache : CachePolicy) :
    Drafting (Option Target) := do
  if (a.get? "Property").isSome then rejectArguments m a .propertyOfProperty
  else
    match p.setter with
    | some setter => reject (.derivedHasSetter m.name setter.span) m.nameSpan
    | none =>
      match ← resolve m.name with
      | none => return none
      | some id =>
        match p.getterBody? with
        | some body =>
          match ← stagedBody m body with
          | some recompute => return some ⟨id, m.name, p.type, .property, some recompute, body.memberReads⟩
          | none => return none
        | none =>
          if cache.isCached then reject (.missingGetterExpression m.name) m.nameSpan
          else return some ⟨id, m.name, p.type, .property, none, []⟩

/-- What a derived method is; the property that exposes it is added. -/
def methodTarget (m : MemberDecl) (d : MethodDecl) (a : Annotation) : Drafting (Option Target) := do
  match a.string? "Property" with
  | none => rejectArguments m a .methodWithoutProperty
  | some exposed =>
    if !d.params.isEmpty then rejectBody m .takesParameters
    else if d.returnType.isVoid then rejectBody m .returnsNothing
    else
      match ← claim exposed a.span with
      | some earlier => reject (.duplicateTarget exposed earlier) a.span
      | none =>
        match ← addProperty ⟨exposed, d.returnType, false, .plain, true, none, a.span⟩ with
        | .error earlier => reject (.duplicateTarget exposed earlier) a.span
        | .ok id =>
          let reads := (d.body.map Expr.memberReads).getD []
          return some ⟨id, exposed, d.returnType, .method m.name, some (.method m.name), reads⟩

/-- The fields of a cached value, whose names are taken; none if one of them is not free. -/
def cacheSlot (m : MemberDecl) (name : String) (cache : CachePolicy) : Drafting (Option (Option DerivedSlot)) := do
  if !cache.isCached then return some none
  else
    let value := Naming.slot name
    let flag := if cache = .lazy then some (Naming.lazyFlag value) else none
    match ← claimAll ([value, Naming.recompute name] ++ flag.toList) m.nameSpan with
    | some (slot, existing) => reject (.slotCollision name slot existing) m.nameSpan
    | none => return some (some ⟨value, flag⟩)

/-- Takes the name of a hoisted function; false if it is not free. -/
def claimFunction (m : MemberDecl) (name : String) (recompute : Option StagedRecompute) : Drafting Bool := do
  match recompute with
  | some (.projection _ _ function) =>
    match ← claim function m.nameSpan with
    | some existing => do
      report (.slotCollision name function existing) m.nameSpan
      return false
    | none => return true
  | _ => return true

/-- The properties of names, each once; a name that has none is reported. -/
def resolveSources (name : String) (a : Annotation) : List String → List PropertyId → Drafting (List PropertyId)
  | [], sources => return sources
  | source :: rest, sources => do
    match ← resolve source with
    | some id => resolveSources name a rest (if sources.contains id then sources else sources ++ [id])
    | none => do
      report (.unknownSource name source) a.span
      resolveSources name a rest sources

/-- Reports the properties that are read and not declared as sources. -/
def checkReads (name : String) (declared : List String) : List Expr.Read → Drafting Unit
  | [] => return ()
  | read :: rest => do
    unless read.name == name || declared.contains read.name do
      if (← resolve read.name).isSome then report (.undeclaredRead name read.name) read.span
    checkReads name declared rest

/-- A member that is annotated as derived. -/
def stageDerived (m : MemberDecl) (a : Annotation) : Drafting (Option Staged) := do
  let cache := ((a.constant? "CacheMode").bind CachePolicy.ofName?).getD .eager
  let target ← match m.kind with
    | .property p => propertyTarget m p a cache
    | .method d => methodTarget m d a
  match target with
  | none => return none
  | some t => do
    let notifies := a.bool "NotifyOnInitialValue" false
    let ignored := cache = .lazy && notifies
    if ignored then report (.ignoredInitialNotification t.name) a.span
    match ← cacheSlot m t.name cache with
    | none => return none
    | some slot => do
      if !(← claimFunction m t.name t.recompute) then return none
      let declared := a.strings "Sources"
      let sources ← resolveSources t.name a declared []
      checkReads t.name declared t.reads
      return some
        ⟨t.property, t.name, t.type, t.origin, t.recompute, cache, notifies && !ignored, slot, sources, m.nameSpan⟩

/-- A member that follows an observable: its getter builds the helper, which announces the changes. -/
def stageObservable (m : MemberDecl) (a : Annotation) : Drafting (Option Staged) := do
  match m.kind with
  | .method _ => rejectArguments m a (.propertiesOnly .observable)
  | .property p =>
    match p.setter, p.getterBody? with
    | some setter, _ => reject (.derivedHasSetter m.name setter.span) m.nameSpan
    | none, none => reject (.missingGetterExpression m.name) m.nameSpan
    | none, some body =>
      if body.containsLambda then rejectBody m .lambdaInHelper
      else
        match ← resolve m.name with
        | none => return none
        | some id =>
          let slot := Naming.slot m.name
          match ← claim slot m.nameSpan with
          | some existing => reject (.slotCollision m.name slot existing) m.nameSpan
          | none =>
            return some
              ⟨id, m.name, p.type, .observable, some (.inline body.helper), .eager, false, some ⟨slot, none⟩, [],
                m.nameSpan⟩

/-- The staged value of a member, if it is annotated as one. -/
def stageMember (m : MemberDecl) (annotations : List Annotation) : Drafting (Option Staged) := do
  match findKind .derived annotations, findKind .observable annotations with
  | some _, some a => rejectArguments m a .combinedWithDerived
  | some a, none => stageDerived m a
  | none, some a => stageObservable m a
  | none, none => return none

/-- The staged values of the members, in order. -/
def stageAll : List (MemberDecl × List Annotation) → Drafting (List Staged)
  | [] => return []
  | (m, annotations) :: rest => do
    match ← stageMember m annotations with
    | some staged => return staged :: (← stageAll rest)
    | none => stageAll rest

/-! ### Announcements for other properties -/

/-- The place of the setter of the first property of a name, if that is the first member of the name. -/
def setterSpan? (c : ClassDecl) (name : String) : Option Span := do
  let p ← (← c.member? name).property?
  return (← p.setter).span

/-- The staged values with `source` announcing the changes of `target`. -/
def announce (c : ClassDecl) (m : MemberDecl) (a : Annotation) (source : PropertyId) (staged : List Staged)
    (target : String) : Drafting (List Staged) := do
  let table := (← get).members
  match table.resolve? target with
  | none => do
    report (.unknownSource m.name target) a.span
    return staged
  | some id =>
    match staged.find? (·.property = id) with
    | some s => do
      if s.origin = .observable then
        report (.invalidArguments a.kind.text m.name (.announcedByHelper target)) a.span
        return staged
      else if s.sources.contains source then return staged
      else
        let index := staged.findIdx (·.property = id)
        return staged.modify index fun s => { s with sources := s.sources ++ [source] }
    | none =>
      match table.find? target with
      | none => return staged
      | some info => do
        if info.hasSetter then
          report (.derivedHasSetter target ((setterSpan? c target).getD info.span)) a.span
          return staged
        else
          return staged ++
            [⟨id, info.name, info.type, .property, none, .disabled, false, none, [source], info.span⟩]

/-- The staged values with the announcements of a member. -/
def mergeAnnouncements (c : ClassDecl) (m : MemberDecl) (a : Annotation) (staged : List Staged) :
    Drafting (List Staged) := do
  let source ← if m.property?.isSome then resolve m.name else pure none
  match source with
  | none => do
    report (.invalidArguments a.kind.text m.name (.propertiesOnly .notifyFor)) a.span
    return staged
  | some id => (a.strings "Targets").foldlM (announce c m a id) staged

/-- The staged values with the announcements of all members. -/
def mergeAll (c : ClassDecl) : List (MemberDecl × List Annotation) → List Staged → Drafting (List Staged)
  | [], staged => return staged
  | (m, annotations) :: rest, staged => do
    match findKind .notifyFor annotations with
    | some a => mergeAll c rest (← mergeAnnouncements c m a staged)
    | none => mergeAll c rest staged

end Drafting

/-! ### Cycles -/

namespace Staged

/-- The staged values that each staged value is computed from. -/
def digraph (staged : List Staged) : Digraph :=
  staged.map fun s => s.sources.filterMap fun source => staged.findIdx? (·.property = source)

/-- The cycles among staged values. -/
def cycles (staged : List Staged) : List (List Nat) :=
  let g := digraph staged
  g.components.filter g.isCyclic

/-- The finding about a cycle: its members, the first one again at the end. -/
def cycleFinding (staged : List Staged) (cycle : List Nat) : Option Finding := do
  let members := cycle.filterMap fun i => staged[i]?
  let first ← members.head?
  let chain := members.map Staged.name ++ [first.name]
  return ⟨.derivedCycle chain (members.tail.map Staged.span), first.span⟩

/-- The staged values that lie on no cycle. -/
def acyclic (staged : List Staged) : List Staged :=
  let rejected := (cycles staged).flatten
  ((List.range staged.length).filter fun i => !rejected.contains i).filterMap fun i => staged[i]?

end Staged

/-! ### Numbers -/

/-- The derived values of a class, their graph, and the functions hoisted out of projections. -/
structure DerivedSection where
  derived : List DerivedProperty
  graph : DependencyGraph
  statics : List HoistedFunction
deriving Repr

namespace DerivedSection

/-- One more derived value. -/
def add (section_ : DerivedSection) (s : Staged) : DerivedSection :=
  let id := section_.derived.length
  let make (recompute : Option Recompute) : DerivedProperty :=
    ⟨s.property, s.name, s.type, s.origin, recompute, s.cache, s.notifiesInitially, s.slot, s.sources, s.span⟩
  match s.recompute with
  | none => { section_ with derived := section_.derived ++ [make none] }
  | some (.inline body) => { section_ with derived := section_.derived ++ [make (some (.inline body))] }
  | some (.method name) => { section_ with derived := section_.derived ++ [make (some (.method name))] }
  | some (.projection param body function) =>
    { section_ with
      derived := section_.derived ++ [make (some (.hoisted section_.statics.length))]
      statics := section_.statics ++ [⟨⟨function, param, body, s.type⟩, id⟩] }

/-- The dependencies of derived values, which are numbered from `id` on. -/
def edges (id : DerivedId) : List DerivedProperty → List (PropertyId × DerivedId)
  | [] => []
  | d :: ds => d.sources.map (·, id) ++ edges (id + 1) ds

/-- Derived values in the order of their numbers. -/
def ofStaged (staged : List Staged) : DerivedSection :=
  let all := staged.foldl add ⟨[], .empty, []⟩
  { all with graph := .ofEdges (edges 0 all.derived) }

end DerivedSection

namespace Drafting

/-- Sets the roles of the properties of derived values, which are numbered from `id` on. -/
def setDerivedRoles (id : DerivedId) : List Staged → Drafting Unit
  | [] => return ()
  | s :: rest => do
    setRole s.property (.derived id)
    setDerivedRoles (id + 1) rest

/-- The derived values of a class. -/
def derivedSection (c : ClassDecl) (records : List (MemberDecl × List Annotation)) : Drafting DerivedSection := do
  let staged ← mergeAll c records (← stageAll records)
  for cycle in Staged.cycles staged do
    if let some finding := Staged.cycleFinding staged cycle then report finding.cause finding.span
  let kept := Staged.acyclic staged
  setDerivedRoles 0 kept
  return .ofStaged kept

end Drafting

end Reactive
