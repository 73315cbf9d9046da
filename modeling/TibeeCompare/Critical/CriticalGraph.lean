import TibeeCompare.Basic
import Mathlib.Data.List.Basic

/-!
`critical::CriticalGraph`: the nodes of every thread in creation order, and
the edges between them.

A `CriticalNode*` is a number, the rank of the node in creation order, and
`heap` holds the nodes that are allocated. An edge id is a number as well, and a
slot with `kInvalidCriticalEdgeId` is `none`. The vectors of `_tid_to_nodes` own
the nodes: `cleanup` frees them, and a pointer that is kept elsewhere then
dangles. Reading through such a pointer is `Fault.deadNode`, the `exit(1)` of
`GetEdge` is `Fault.invalidEdge`.
-/

namespace TibeeCompare.Critical

inductive CriticalEdgeType
  | unknown | vertical | run | interrupted | waitCpu | waitBlocked | timer
  | network | blockDevice | userInput | epsilon
  deriving DecidableEq, Repr

inductive CriticalEdgePosition
  | outVertical | inVertical | outHorizontal | inHorizontal
  deriving DecidableEq, Repr

/-- The slot at the other end of an edge. -/
def CriticalEdgePosition.opposite : CriticalEdgePosition → CriticalEdgePosition
  | .outVertical => .inVertical
  | .inVertical => .outVertical
  | .outHorizontal => .inHorizontal
  | .inHorizontal => .outHorizontal

/-- The positions in the order in which `Cleanup` goes through them. -/
def CriticalEdgePosition.all : List CriticalEdgePosition :=
  [.outVertical, .inVertical, .outHorizontal, .inHorizontal]

structure CriticalNode where
  edge : CriticalEdgePosition → Option ℕ
  ts : ℕ
  tid : ℕ

def CriticalNode.setEdge (node : CriticalNode) (position : CriticalEdgePosition)
    (edge : Option ℕ) : CriticalNode :=
  { node with edge := Function.update node.edge position edge }

structure CriticalEdge where
  type : CriticalEdgeType
  fromNode : ℕ
  toNode : ℕ
  deriving DecidableEq, Repr

/-- What can go wrong in a call besides a wrong answer. -/
inductive Fault
  /-- `GetEdge` was asked for an edge that is not stored: `exit(1)`. -/
  | invalidEdge
  /-- A node that was freed is read or written: undefined behaviour. -/
  | deadNode
  /-- The recursion or the loop goes on after the given number of rounds. -/
  | outOfFuel
  deriving DecidableEq, Repr

/-- `kMaxTid`. -/
def kMaxTid : ℕ := 32768

/-- `kNetworkThread`: special thread for network operations. -/
def kNetworkThread : ℕ := kMaxTid + 1

structure CriticalGraph where
  /-- `_ts`. -/
  ts : ℕ
  /-- The vectors of `_tid_to_nodes`; a missing vector reads as an empty one. -/
  nodesOf : ℕ → List ℕ
  /-- The keys of `_tid_to_nodes`. -/
  tids : List ℕ
  /-- The allocated nodes. -/
  heap : ℕ → Option CriticalNode
  nextNode : ℕ
  /-- `_edges`. -/
  edges : ℕ → Option CriticalEdge
  /-- `_nextEdgeId`. -/
  nextEdgeId : ℕ

namespace CriticalGraph

def empty : CriticalGraph :=
  { ts := 0, nodesOf := fun _ => [], tids := [], heap := fun _ => none,
    nextNode := 0, edges := fun _ => none, nextEdgeId := 0 }

/-- Reading through a node pointer. -/
def deref (g : CriticalGraph) (n : ℕ) : Except Fault CriticalNode :=
  match g.heap n with
  | some node => .ok node
  | none => .error .deadNode

/-- The timestamp of a node that its vector owns. -/
def tsOf (g : CriticalGraph) (n : ℕ) : ℕ :=
  match g.heap n with
  | some node => node.ts
  | none => 0

/-- The edge id in a slot of a node. -/
def slot (g : CriticalGraph) (n : ℕ) (position : CriticalEdgePosition) :
    Option ℕ :=
  (g.heap n).bind (·.edge position)

def getEdge (g : CriticalGraph) (id : ℕ) : Except Fault CriticalEdge :=
  match g.edges id with
  | some edge => .ok edge
  | none => .error .invalidEdge

def setTimestamp (g : CriticalGraph) (ts : ℕ) : CriticalGraph := { g with ts := ts }

/-- `set_edge` through a node pointer. -/
def setEdge (g : CriticalGraph) (n : ℕ) (position : CriticalEdgePosition)
    (edge : Option ℕ) : Except Fault CriticalGraph := do
  let node ← g.deref n
  pure { g with heap := Function.update g.heap n (some (node.setEdge position edge)) }

def createNode (g : CriticalGraph) (tid : ℕ) : CriticalGraph × ℕ :=
  ({ g with
      heap := Function.update g.heap g.nextNode
        (some { edge := fun _ => none, ts := g.ts, tid := tid })
      nodesOf := Function.update g.nodesOf tid (g.nodesOf tid ++ [g.nextNode])
      tids := if tid ∈ g.tids then g.tids else g.tids ++ [tid]
      nextNode := g.nextNode + 1 }, g.nextNode)

/-- `GetNodeIntersecting`: the last node at or before `ts`, when its outgoing
horizontal edge reaches `ts` or it has none and lies exactly at `ts`. -/
def getNodeIntersecting (g : CriticalGraph) (ts : ℕ) (tid : ℕ) :
    Except Fault (Option ℕ) :=
  match ((g.nodesOf tid).takeWhile fun n => g.tsOf n ≤ ts).getLast? with
  | none => pure none
  | some n => do
      let node ← g.deref n
      match node.edge .outHorizontal with
      | none => pure (if node.ts = ts then some n else none)
      | some edgeId =>
          let edge ← g.getEdge edgeId
          let toNode ← g.deref edge.toNode
          pure (if toNode.ts < ts then none else some n)

/-- `GetNodeStartingAfter`: the first node after `ts`. -/
def getNodeStartingAfter (g : CriticalGraph) (ts : ℕ) (tid : ℕ) : Option ℕ :=
  ((g.nodesOf tid).dropWhile fun n => g.tsOf n ≤ ts).head?

def getLastNodeForThread (g : CriticalGraph) (tid : ℕ) : Option ℕ :=
  (g.nodesOf tid).getLast?

/-- Stores an edge under the next id. -/
def storeEdge (g : CriticalGraph) (edge : CriticalEdge) : CriticalGraph :=
  { g with
    nextEdgeId := g.nextEdgeId + 1
    edges := Function.update g.edges g.nextEdgeId (some edge) }

/-- What `CreateHorizontalEdge` and `CreateVerticalEdge` have in common: the
edge is stored, and its id is written into both slots. -/
def createEdge (g : CriticalGraph) (edge : CriticalEdge) (outPosition : CriticalEdgePosition) :
    Except Fault (CriticalGraph × ℕ) := do
  let id := g.nextEdgeId
  let g ← (g.storeEdge edge).setEdge edge.fromNode outPosition (some id)
  let g ← g.setEdge edge.toNode outPosition.opposite (some id)
  pure (g, id)

def createHorizontalEdge (g : CriticalGraph) (type : CriticalEdgeType)
    (fromNode toNode : ℕ) : Except Fault (CriticalGraph × ℕ) :=
  g.createEdge ⟨type, fromNode, toNode⟩ .outHorizontal

def createVerticalEdge (g : CriticalGraph) (fromNode toNode : ℕ) :
    Except Fault (CriticalGraph × ℕ) :=
  g.createEdge ⟨.vertical, fromNode, toNode⟩ .outVertical

/-- One round of the inner loop of `Cleanup`: the edge in a slot of a node that
goes away is removed from the slot at its other end and erased. -/
def cleanSlot (n : ℕ) (g : CriticalGraph) (position : CriticalEdgePosition) :
    Except Fault CriticalGraph := do
  let node ← g.deref n
  match node.edge position with
  | none => pure g
  | some edgeId =>
      let edge ← g.getEdge edgeId
      let other := match position with
        | .outVertical | .outHorizontal => edge.toNode
        | .inVertical | .inHorizontal => edge.fromNode
      let g ← g.setEdge other position.opposite none
      pure { g with edges := Function.update g.edges edgeId none }

def cleanNode (g : CriticalGraph) (n : ℕ) : Except Fault CriticalGraph :=
  CriticalEdgePosition.all.foldlM (cleanSlot n) g

/-- The nodes of a thread that `Cleanup` removes: all before the first one that
is not older than the cutoff. -/
def staleNodes (g : CriticalGraph) (ts : ℕ) (tid : ℕ) : List ℕ :=
  (g.nodesOf tid).takeWhile fun n => g.tsOf n < ts

def keptNodes (g : CriticalGraph) (ts : ℕ) (tid : ℕ) : List ℕ :=
  (g.nodesOf tid).dropWhile fun n => g.tsOf n < ts

/-- The vector of a thread is replaced, which frees the nodes left behind. -/
def replaceNodes (g : CriticalGraph) (tid : ℕ) (stale kept : List ℕ) : CriticalGraph :=
  { g with
    nodesOf := Function.update g.nodesOf tid kept
    heap := fun n => if n ∈ stale then none else g.heap n }

/-- One round of the outer loop of `Cleanup`. -/
def cleanThread (ts : ℕ) (g : CriticalGraph) (tid : ℕ) : Except Fault CriticalGraph := do
  let stale := g.staleNodes ts tid
  let kept := g.keptNodes ts tid
  let g ← stale.foldlM cleanNode g
  pure (g.replaceNodes tid stale kept)

/-- `Cleanup`. `_tid_to_nodes` is a hash table, so the order in which the threads
are visited is an argument: any permutation of the keys. -/
def cleanup (g : CriticalGraph) (ts : ℕ) (order : List ℕ) :
    Except Fault CriticalGraph :=
  order.foldlM (cleanThread ts) g

end CriticalGraph

end TibeeCompare.Critical
