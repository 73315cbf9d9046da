import TibeeCompare.Critical.CriticalGraph

/-!
`critical::ComputeCriticalPath`: the walk over the graph that lists, for a
thread and a time window, what the thread was doing or waiting for.

`ComputeCriticalPathRecursive` and `ResolvedBlockedEdge` call each other. The
functions below take the recursive call as an argument, and
`computeCriticalPathRecursive` closes the knot with a bound on the depth. The
two loops follow outgoing horizontal edges; a loop that visits more nodes than
were ever created visits one of them twice and never ends, so their bound is
the number of nodes.
-/

namespace TibeeCompare.Critical

structure CriticalPathSegment where
  startTs : ℕ
  endTs : ℕ
  tid : ℕ
  type : CriticalEdgeType
  deriving DecidableEq, Repr

abbrev CriticalPath := List CriticalPathSegment

/-- `InsertCriticalPathSegment`. -/
def insertCriticalPathSegment (segment : CriticalPathSegment) (path : CriticalPath) :
    CriticalPath :=
  match path.getLast? with
  | some back =>
      if back.type = segment.type ∧ back.tid = segment.tid then
        path.dropLast ++ [{ back with endTs := segment.endTs }]
      else path ++ [segment]
  | none => path ++ [segment]

/-- The edges that `ResolvedBlockedEdge` is called for. -/
def CriticalEdgeType.isBlocked (type : CriticalEdgeType) : Bool :=
  type = .waitBlocked || type = .network

/-- A call of `ComputeCriticalPathRecursive` on the shared path. -/
abbrev Recursion :=
  ℕ → ℕ → ℕ → CriticalPath → Except Fault CriticalPath

/-- The end of `ResolvedBlockedEdge`, marked "Normal case" in the source. -/
def resolveOnSourceThread (recurse : Recursion) (startTs endTs : ℕ)
    (sourceThread : ℕ) (path : CriticalPath) : Except Fault CriticalPath :=
  -- The empty segment makes sure that stacks are resolved properly.
  recurse startTs endTs sourceThread
    (insertCriticalPathSegment ⟨startTs, startTs, sourceThread, .epsilon⟩ path)

/-- `ResolvedBlockedEdge`. -/
def resolvedBlockedEdge (g : CriticalGraph) (recurse : Recursion) (edge : CriticalEdge)
    (startTs endTs : ℕ) (path : CriticalPath) : Except Fault CriticalPath := do
  let toNode ← g.deref edge.toNode
  match toNode.edge .inVertical with
  | none => pure (insertCriticalPathSegment ⟨startTs, endTs, toNode.tid, edge.type⟩ path)
  | some wakeUpEdgeId =>
      let wakeUpEdge ← g.getEdge wakeUpEdgeId
      let networkEndNode ← g.deref wakeUpEdge.fromNode
      let sourceThread := networkEndNode.tid
      if sourceThread = kNetworkThread then
        match networkEndNode.edge .inHorizontal with
        | some networkEdgeId =>
            let networkEdge ← g.getEdge networkEdgeId
            let networkStartNode ← g.deref networkEdge.fromNode
            match networkStartNode.edge .inVertical with
            | some networkWakeUpEdgeId =>
                let networkWakeUpEdge ← g.getEdge networkWakeUpEdgeId
                let networkSource ← g.deref networkWakeUpEdge.fromNode
                let path ← recurse startTs networkStartNode.ts networkSource.tid path
                -- The time spent waiting on the network thread.
                pure (insertCriticalPathSegment
                  ⟨networkStartNode.ts, networkEndNode.ts, networkStartNode.tid,
                    networkEdge.type⟩ path)
            | none => resolveOnSourceThread recurse startTs endTs sourceThread path
        | none => resolveOnSourceThread recurse startTs endTs sourceThread path
      else resolveOnSourceThread recurse startTs endTs sourceThread path

/-- What the last loop of `ComputeCriticalPathRecursive` does with one edge, clipped
to the window. -/
def followEdge (g : CriticalGraph) (recurse : Recursion) (edge : CriticalEdge)
    (edgeStartTs edgeEndTs : ℕ) (tid : ℕ) (path : CriticalPath) :
    Except Fault CriticalPath :=
  if edge.type.isBlocked then
    resolvedBlockedEdge g recurse edge edgeStartTs edgeEndTs path
  else if edgeStartTs ≠ edgeEndTs then
    pure (insertCriticalPathSegment ⟨edgeStartTs, edgeEndTs, tid, edge.type⟩ path)
  else pure path

/-- The last loop of `ComputeCriticalPathRecursive`. -/
def traverseNodes (g : CriticalGraph) (recurse : Recursion) (startTs endTs : ℕ)
    (tid : ℕ) : ℕ → Option ℕ → CriticalPath → Except Fault CriticalPath
  | _, none, path => pure path
  | 0, some _, _ => .error .outOfFuel
  | rounds + 1, some n, path => do
      let node ← g.deref n
      if node.ts ≤ endTs then
        match node.edge .outHorizontal with
        | none => pure path
        | some edgeId =>
            let edge ← g.getEdge edgeId
            let nextNode ← g.deref edge.toNode
            let edgeStartTs := max startTs node.ts
            let edgeEndTs := min endTs nextNode.ts
            let path ← followEdge g recurse edge edgeStartTs edgeEndTs tid path
            traverseNodes g recurse startTs endTs tid rounds (some edge.toNode) path
      else pure path

/-- The first loop of `ComputeCriticalPathRecursive`, for a thread without a node
at the start of the window: the first node, from `n` on, that was woken up. -/
def findWakeUp (g : CriticalGraph) (endTs : ℕ) :
    ℕ → Option ℕ → Except Fault (Option (ℕ × ℕ))
  | _, none => pure none
  | 0, some _ => .error .outOfFuel
  | rounds + 1, some n => do
      let node ← g.deref n
      if node.ts ≤ endTs then
        match node.edge .inVertical with
        | some wakeUpEdgeId => pure (some (n, wakeUpEdgeId))
        | none =>
            match node.edge .outHorizontal with
            | some horizontalEdgeId =>
                let edge ← g.getEdge horizontalEdgeId
                findWakeUp g endTs rounds (some edge.toNode)
            | none => pure none
      else pure none

/-- The bound of the two loops. -/
def CriticalGraph.rounds (g : CriticalGraph) : ℕ := g.nextNode + 1

/-- The body of `ComputeCriticalPathRecursive`. -/
def computeCriticalPathBody (g : CriticalGraph) (recurse : Recursion)
    (startTs endTs : ℕ) (tid : ℕ) (path : CriticalPath) :
    Except Fault CriticalPath := do
  if endTs ≤ startTs then
    pure path
  else
    match ← g.getNodeIntersecting startTs tid with
    | some node => traverseNodes g recurse startTs endTs tid g.rounds (some node) path
    | none =>
        -- The thread didn't exist at `startTs`.
        match ← findWakeUp g endTs g.rounds (g.getNodeStartingAfter startTs tid) with
        | some (n, wakeUpEdgeId) =>
            let node ← g.deref n
            let wakeUpEdge ← g.getEdge wakeUpEdgeId
            let source ← g.deref wakeUpEdge.fromNode
            let path ← recurse startTs node.ts source.tid path
            traverseNodes g recurse startTs endTs tid g.rounds (some n) path
        | none =>
            -- This thread has no wake-up edge: fill the path with a blocked edge.
            let node := g.getNodeStartingAfter startTs tid
            let segmentEnd := match node with
              | some n => g.tsOf n
              | none => endTs
            traverseNodes g recurse startTs endTs tid g.rounds node
              (insertCriticalPathSegment ⟨startTs, segmentEnd, tid, .waitBlocked⟩ path)

/-- `ComputeCriticalPathRecursive`, to a given depth of the recursion. -/
def computeCriticalPathRecursive (g : CriticalGraph) : ℕ → Recursion
  | 0 => fun _ _ _ _ => .error .outOfFuel
  | fuel + 1 => computeCriticalPathBody g (computeCriticalPathRecursive g fuel)

/-- `ComputeCriticalPath`. The call ends when it does not run out of fuel for
some depth. -/
def computeCriticalPath (g : CriticalGraph) (fuel : ℕ) (startTs endTs : ℕ)
    (tid : ℕ) : Except Fault CriticalPath :=
  computeCriticalPathRecursive g fuel startTs endTs tid []

end TibeeCompare.Critical
