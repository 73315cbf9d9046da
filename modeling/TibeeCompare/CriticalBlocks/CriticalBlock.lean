import TibeeCompare.Critical.CriticalGraph

/-!
`critical_blocks::CriticalBlock`: the event handlers that build the critical
graph.

A handler reads the event, the interrupt contexts of its CPU and the last edge
type of the threads involved; it appends nodes and edges to the graph. What it
reads from the current state (`ThreadForCPU`) comes with the event. Besides the
graph, the block keeps pointers to nodes in two places: in `networkNodes`, from
the time a packet is sent, and in the interrupt context that receives it.
-/

namespace TibeeCompare.CriticalBlocks

open Critical Function

def resolveIRQ : ℕ → CriticalEdgeType
  | 0 => .interrupted
  | 19 | 23 => .userInput
  | _ => .waitBlocked

def resolveSoftIRQ : ℕ → CriticalEdgeType
  | 1 | 8 => .timer
  | 4 | 5 => .blockDevice
  | 2 | 3 => .network
  | 7 => .interrupted
  | _ => .waitBlocked

structure InterruptContext where
  type : CriticalEdgeType
  node : Option ℕ
  deriving DecidableEq, Repr

structure PacketKey where
  seq : UInt64
  ackSeq : UInt64
  flags : UInt32
  deriving DecidableEq, Repr

/-- The quarks that `OnThreadStatus` tells apart. -/
inductive ThreadStatus
  | runUsermode | runSyscall | interrupted | waitForCpu | waitBlocked | other
  deriving DecidableEq, Repr

structure CriticalBlock where
  /-- `CriticalGraph()`. -/
  graph : CriticalGraph
  /-- `State()->timestamp()`. -/
  stateTs : ℕ
  /-- `_context`: the stack of interrupts of each CPU, the top first. -/
  context : ℕ → List InterruptContext
  lastEdgeTypePerThread : ℕ → Option CriticalEdgeType
  networkNodes : PacketKey → Option ℕ
  diskThreads : List ℕ
  /-- The arguments of the calls of `DiskRequests()->AddInterval`. -/
  diskIntervals : List (ℕ × ℕ × ℕ)

namespace CriticalBlock

def initial : CriticalBlock :=
  { graph := .empty, stateTs := 0, context := fun _ => [],
    lastEdgeTypePerThread := fun _ => none, networkNodes := fun _ => none,
    diskThreads := [], diskIntervals := [] }

/-- `BuildBlock::onTimestamp` sets the timestamp of the graph; the current state
has the timestamp of the event as well. -/
def setTimestamp (b : CriticalBlock) (ts : ℕ) : CriticalBlock :=
  { b with graph := b.graph.setTimestamp ts, stateTs := ts }

/-- What the handlers of interrupt entries have in common. -/
def pushContext (b : CriticalBlock) (cpu : ℕ) (type : CriticalEdgeType) : CriticalBlock :=
  { b with context := update b.context cpu (⟨type, none⟩ :: b.context cpu) }

/-- What the handlers of interrupt exits have in common: an exit of another type
than the entry on top is ignored. -/
def popContext (b : CriticalBlock) (cpu : ℕ) (type : CriticalEdgeType) : CriticalBlock :=
  match b.context cpu with
  | [] => b
  | top :: rest =>
      if top.type ≠ type then b
      else { b with context := update b.context cpu rest }

def onSoftIrqEntry (b : CriticalBlock) (cpu vec : ℕ) : CriticalBlock :=
  b.pushContext cpu (resolveSoftIRQ vec)

def onSoftIrqExit (b : CriticalBlock) (cpu vec : ℕ) : CriticalBlock :=
  b.popContext cpu (resolveSoftIRQ vec)

def onIrqHandlerEntry (b : CriticalBlock) (cpu irq : ℕ) : CriticalBlock :=
  b.pushContext cpu (resolveIRQ irq)

def onIrqHandlerExit (b : CriticalBlock) (cpu irq : ℕ) : CriticalBlock :=
  b.popContext cpu (resolveIRQ irq)

def onHrtimerExpireEntry (b : CriticalBlock) (cpu : ℕ) : CriticalBlock :=
  b.pushContext cpu .timer

def onHrtimerExpireExit (b : CriticalBlock) (cpu : ℕ) : CriticalBlock :=
  b.popContext cpu .timer

def onInetSockLocalIn (b : CriticalBlock) (cpu : ℕ) (key : PacketKey) : CriticalBlock :=
  match b.networkNodes key with
  | none => b
  | some networkNode =>
      match b.context cpu with
      | [] => b
      | top :: rest =>
          -- The wake-up from this interrupt is linked with the network node.
          { b with
            context := update b.context cpu ({ top with node := some networkNode } :: rest)
            networkNodes := update b.networkNodes key none }

/-- `CutThread`: a new node at the end of a thread, linked to the last one. -/
def cutThread (b : CriticalBlock) (tid : ℕ) : Except Fault (CriticalBlock × Option ℕ) :=
  match b.graph.getLastNodeForThread tid with
  | none => pure (b, none)
  | some prevNode =>
      match b.lastEdgeTypePerThread tid with
      | none => pure (b, none)
      | some prevType => do
          let (g, nextNode) := b.graph.createNode tid
          let (g, _) ← g.createHorizontalEdge prevType prevNode nextNode
          pure ({ b with graph := g }, some nextNode)

def onInetSockLocalOut (b : CriticalBlock) (cpu tid : ℕ) (key : PacketKey) :
    Except Fault CriticalBlock :=
  match b.context cpu with
  | _ :: _ => pure b
  | [] => do
      let (b, nextNodeSource) ← b.cutThread tid
      match nextNodeSource with
      | none => pure b
      | some nextNodeSource =>
          let (g, networkNode) := b.graph.createNode kNetworkThread
          let (g, _) ← g.createVerticalEdge nextNodeSource networkNode
          pure { b with graph := g, networkNodes := update b.networkNodes key (some networkNode) }

/-- The disk request of a thread that waited since its last node. -/
def addInterval (b : CriticalBlock) (targetTid : ℕ) : CriticalBlock :=
  match b.graph.getLastNodeForThread targetTid with
  | none => b
  | some diskNode =>
      { b with diskIntervals := b.diskIntervals ++ [(b.graph.tsOf diskNode, b.stateTs, targetTid)] }

def onTTWUBetweenThreads (b : CriticalBlock) (sourceTid targetTid : ℕ) :
    Except Fault CriticalBlock := do
  let b := if sourceTid ∈ b.diskThreads then b.addInterval targetTid else b
  let (b, nextNodeSource) ← b.cutThread sourceTid
  match nextNodeSource with
  | none => pure b
  | some nextNodeSource =>
      let (b, nextNodeTarget) ← b.cutThread targetTid
      match nextNodeTarget with
      | none => pure b
      | some nextNodeTarget =>
          let (g, _) ← b.graph.createVerticalEdge nextNodeSource nextNodeTarget
          pure { b with graph := g }

/-- The branch of `OnWakeupFromInterrupt` for an interrupt that received a packet. -/
def wakeupFromNetwork (b : CriticalBlock) (node targetTid : ℕ) :
    Except Fault CriticalBlock := do
  let (g, nextNetworkNode) := b.graph.createNode kNetworkThread
  let (g, _) ← g.createHorizontalEdge .run node nextNetworkNode
  let (b, nextThreadNode) ← { b with graph := g }.cutThread targetTid
  match nextThreadNode with
  | none => pure b
  | some nextThreadNode =>
      let (g, _) ← b.graph.createVerticalEdge nextNetworkNode nextThreadNode
      pure { b with graph := g }

def onWakeupFromInterrupt (b : CriticalBlock) (context : InterruptContext) (targetTid : ℕ) :
    Except Fault CriticalBlock :=
  if b.lastEdgeTypePerThread targetTid ≠ some .waitBlocked then pure b
  else
    match context.node with
    | some node => b.wakeupFromNetwork node targetTid
    | none =>
        let b :=
          if context.type = .blockDevice ∧
              b.lastEdgeTypePerThread targetTid ≠ some .blockDevice then
            b.addInterval targetTid
          else b
        pure { b with
          lastEdgeTypePerThread := update b.lastEdgeTypePerThread targetTid (some context.type) }

/-- `OnTTWU`, for the thread `sourceTid` that runs on the CPU. -/
def onTTWU (kInvalidThread : ℕ) (b : CriticalBlock) (sourceCpu sourceTid targetTid : ℕ) :
    Except Fault CriticalBlock :=
  match b.context sourceCpu with
  | top :: _ => b.onWakeupFromInterrupt top targetTid
  | [] =>
      if sourceTid ≠ kInvalidThread ∧ targetTid ≠ kInvalidThread then
        b.onTTWUBetweenThreads sourceTid targetTid
      else pure b

/-- The type of the edge that starts at a change of status. -/
def newEdgeType : Option ThreadStatus → CriticalEdgeType
  | some .runUsermode | some .runSyscall => .run
  | some .interrupted => .interrupted
  | some .waitForCpu => .waitCpu
  | some .waitBlocked => .waitBlocked
  | some .other | none => .unknown

/-- `OnThreadStatus`. Without a status, the thread exited. -/
def onThreadStatus (b : CriticalBlock) (tid : ℕ) (status : Option ThreadStatus) :
    Except Fault CriticalBlock :=
  if b.lastEdgeTypePerThread tid = some (newEdgeType status) then pure b
  else do
    let prevNode := b.graph.getLastNodeForThread tid
    let (g, newNode) := b.graph.createNode tid
    let g ← match prevNode, b.lastEdgeTypePerThread tid with
      | some prevNode, some lastType => do
          let (g, _) ← g.createHorizontalEdge lastType prevNode newNode
          pure g
      | _, _ => pure g
    let last := status.map fun _ => newEdgeType status
    pure { b with
      graph := g
      lastEdgeTypePerThread := update b.lastEdgeTypePerThread tid last }

def onThreadName (b : CriticalBlock) (tid : ℕ) (name : Option Bytes) : CriticalBlock :=
  if tid = 0 then b
  else
    match name with
    | none => b
    | some name =>
        if (str "jbd2").isPrefixOf name then { b with diskThreads := tid :: b.diskThreads } else b

end CriticalBlock

inductive Event
  | ttwu (cpu sourceTid targetTid : ℕ)
  | softIrqEntry (cpu vec : ℕ)
  | softIrqExit (cpu vec : ℕ)
  | irqHandlerEntry (cpu irq : ℕ)
  | irqHandlerExit (cpu irq : ℕ)
  | hrtimerExpireEntry (cpu : ℕ)
  | hrtimerExpireExit (cpu : ℕ)
  | inetSockLocalIn (cpu : ℕ) (key : PacketKey)
  | inetSockLocalOut (cpu tid : ℕ) (key : PacketKey)
  | threadStatus (tid : ℕ) (status : Option ThreadStatus)
  | threadName (tid : ℕ) (name : Option Bytes)
  deriving DecidableEq, Repr

def CriticalBlock.onEvent (kInvalidThread : ℕ) (b : CriticalBlock) :
    Event → Except Fault CriticalBlock
  | .ttwu cpu sourceTid targetTid => b.onTTWU kInvalidThread cpu sourceTid targetTid
  | .softIrqEntry cpu vec => pure (b.onSoftIrqEntry cpu vec)
  | .softIrqExit cpu vec => pure (b.onSoftIrqExit cpu vec)
  | .irqHandlerEntry cpu irq => pure (b.onIrqHandlerEntry cpu irq)
  | .irqHandlerExit cpu irq => pure (b.onIrqHandlerExit cpu irq)
  | .hrtimerExpireEntry cpu => pure (b.onHrtimerExpireEntry cpu)
  | .hrtimerExpireExit cpu => pure (b.onHrtimerExpireExit cpu)
  | .inetSockLocalIn cpu key => pure (b.onInetSockLocalIn cpu key)
  | .inetSockLocalOut cpu tid key => b.onInetSockLocalOut cpu tid key
  | .threadStatus tid status => b.onThreadStatus tid status
  | .threadName tid name => pure (b.onThreadName tid name)

/-- What happens to the graph and the block: a timestamped event, or a cleanup. -/
inductive Step
  | event (ts : ℕ) (event : Event)
  | cleanup (ts : ℕ) (order : List ℕ)
  deriving DecidableEq, Repr

def CriticalBlock.step (kInvalidThread : ℕ) (b : CriticalBlock) :
    Step → Except Fault CriticalBlock
  | .event ts event => (b.setTimestamp ts).onEvent kInvalidThread event
  | .cleanup ts order => do
      let g ← b.graph.cleanup ts order
      pure { b with graph := g }

/-- Events come in the order of time, and a cleanup visits every thread once. -/
def Step.InOrder (b : CriticalBlock) : Step → Prop
  | .event ts _ => b.graph.ts ≤ ts
  | .cleanup _ order => order.Perm b.graph.tids

instance (b : CriticalBlock) : ∀ step : Step, Decidable (step.InOrder b)
  | .event ts _ => inferInstanceAs (Decidable (b.graph.ts ≤ ts))
  | .cleanup _ order => inferInstanceAs (Decidable (order.Perm b.graph.tids))

/-- The states that runs of allowed steps lead to. -/
inductive Reachable (kInvalidThread : ℕ) (Allowed : CriticalBlock → Step → Prop) :
    CriticalBlock → Prop
  | initial : Reachable kInvalidThread Allowed .initial
  | step {b b' : CriticalBlock} {s : Step} : Reachable kInvalidThread Allowed b →
      s.InOrder b → Allowed b s → b.step kInvalidThread s = .ok b' →
      Reachable kInvalidThread Allowed b'

end TibeeCompare.CriticalBlocks
