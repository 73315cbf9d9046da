import TibeeCompare.CriticalBlocks.Provenance

/-!
The requests to the disk that the handlers of `CriticalBlock` add.

An interval starts at the last node of a thread and ends at the time of the event, so that it does
not end before it starts.
-/

namespace TibeeCompare.CriticalBlocks

open Critical

namespace CriticalBlock

/-- What a handler adds to the intervals: of threads that wait since their last node. -/
structure AddsWaits (b b' : CriticalBlock) : Prop where
  stateTs : b'.stateTs = b.stateTs
  added : ∃ added, b'.diskIntervals = b.diskIntervals ++ added ∧
    ∀ interval ∈ added, interval.2.1 = b.stateTs ∧
      ∃ node, b.graph.getLastNodeForThread interval.2.2 = some node ∧
        interval.1 = b.graph.tsOf node

variable {b b' : CriticalBlock}

theorem addsWaits_of_same (hstate : b'.stateTs = b.stateTs)
    (hintervals : b'.diskIntervals = b.diskIntervals) : AddsWaits b b' :=
  ⟨hstate, [], hintervals.trans (List.append_nil _).symm, fun _ h => (by cases h)⟩

theorem addsWaits_addInterval (b : CriticalBlock) (targetTid : ℕ) :
    AddsWaits b (b.addInterval targetTid) := by
  unfold addInterval
  cases hlast : b.graph.getLastNodeForThread targetTid with
  | none => exact addsWaits_of_same rfl rfl
  | some diskNode =>
      refine ⟨rfl, [(b.graph.tsOf diskNode, b.stateTs, targetTid)], rfl, ?_⟩
      intro interval hinterval
      rw [List.mem_singleton.mp hinterval]
      exact ⟨rfl, diskNode, hlast, rfl⟩

/-- What follows in a handler leaves the intervals alone. -/
theorem AddsWaits.then_same (h : AddsWaits b b') {b'' : CriticalBlock}
    (hstate : b''.stateTs = b'.stateTs) (hintervals : b''.diskIntervals = b'.diskIntervals) :
    AddsWaits b b'' := by
  obtain ⟨hts, added, heq, hadded⟩ := h
  exact ⟨hstate.trans hts, added, hintervals.trans heq, hadded⟩

/-- Neither the time nor the intervals change. -/
def SameDisk (b b' : CriticalBlock) : Prop :=
  b'.stateTs = b.stateTs ∧ b'.diskIntervals = b.diskIntervals

theorem SameDisk.addsWaits (h : SameDisk b b') : AddsWaits b b' := addsWaits_of_same h.1 h.2

theorem cutThread_sameDisk {tid : ℕ} {node : Option ℕ} (hcut : b.cutThread tid = .ok (b', node)) :
    SameDisk b b' := by
  unfold cutThread at hcut
  split at hcut
  · cases hcut
    exact ⟨rfl, rfl⟩
  · split at hcut
    · cases hcut
      exact ⟨rfl, rfl⟩
    · obtain ⟨g, -, hrest⟩ := Runs.bind_eq_ok.mp hcut
      cases hrest
      exact ⟨rfl, rfl⟩

theorem onInetSockLocalOut_sameDisk {cpu tid : ℕ} {key : PacketKey}
    (hrun : b.onInetSockLocalOut cpu tid key = .ok b') : SameDisk b b' := by
  unfold onInetSockLocalOut at hrun
  split at hrun
  · cases hrun
    exact ⟨rfl, rfl⟩
  · obtain ⟨⟨mid, node⟩, hcut, hrest⟩ := Runs.bind_eq_ok.mp hrun
    have hmid := cutThread_sameDisk hcut
    dsimp only at hrest
    split at hrest
    · cases hrest
      exact hmid
    · obtain ⟨g, -, hrest⟩ := Runs.bind_eq_ok.mp hrest
      cases hrest
      exact hmid

theorem onTTWUBetweenThreads_addsWaits {sourceTid targetTid : ℕ}
    (hrun : b.onTTWUBetweenThreads sourceTid targetTid = .ok b') : AddsWaits b b' := by
  unfold onTTWUBetweenThreads at hrun
  dsimp only at hrun
  have hadds : AddsWaits b (if sourceTid ∈ b.diskThreads then b.addInterval targetTid else b) := by
    split
    · exact addsWaits_addInterval b targetTid
    · exact addsWaits_of_same rfl rfl
  generalize (if sourceTid ∈ b.diskThreads then b.addInterval targetTid else b) = start
    at hadds hrun
  obtain ⟨⟨mid, node⟩, hcut, hrest⟩ := Runs.bind_eq_ok.mp hrun
  have hmid := cutThread_sameDisk hcut
  have hadds := hadds.then_same hmid.1 hmid.2
  dsimp only at hrest
  split at hrest
  · cases hrest
    exact hadds
  · obtain ⟨⟨last, node'⟩, hcut', hrest⟩ := Runs.bind_eq_ok.mp hrest
    have hlast := cutThread_sameDisk hcut'
    have hadds := hadds.then_same hlast.1 hlast.2
    dsimp only at hrest
    split at hrest
    · cases hrest
      exact hadds
    · obtain ⟨g, -, hrest⟩ := Runs.bind_eq_ok.mp hrest
      cases hrest
      exact hadds.then_same rfl rfl

theorem wakeupFromNetwork_sameDisk {node targetTid : ℕ}
    (hrun : b.wakeupFromNetwork node targetTid = .ok b') : SameDisk b b' := by
  unfold wakeupFromNetwork at hrun
  obtain ⟨g, -, hrest⟩ := Runs.bind_eq_ok.mp hrun
  obtain ⟨⟨mid, node'⟩, hcut, hrest⟩ := Runs.bind_eq_ok.mp hrest
  have hmid := cutThread_sameDisk hcut
  dsimp only at hrest
  split at hrest
  · cases hrest
    exact hmid
  · obtain ⟨g', -, hrest⟩ := Runs.bind_eq_ok.mp hrest
    cases hrest
    exact hmid

theorem onWakeupFromInterrupt_addsWaits {context : InterruptContext} {targetTid : ℕ}
    (hrun : b.onWakeupFromInterrupt context targetTid = .ok b') : AddsWaits b b' := by
  unfold onWakeupFromInterrupt at hrun
  split at hrun
  · cases hrun
    exact addsWaits_of_same rfl rfl
  · split at hrun
    · exact (wakeupFromNetwork_sameDisk hrun).addsWaits
    · cases hrun
      split
      · exact (addsWaits_addInterval b targetTid).then_same rfl rfl
      · exact addsWaits_of_same rfl rfl

theorem onThreadStatus_sameDisk {tid : ℕ} {status : Option ThreadStatus}
    (hrun : b.onThreadStatus tid status = .ok b') : SameDisk b b' := by
  unfold onThreadStatus at hrun
  split at hrun
  · cases hrun
    exact ⟨rfl, rfl⟩
  · dsimp only at hrun
    split at hrun
    · obtain ⟨g, -, hrest⟩ := Runs.bind_eq_ok.mp hrun
      cases hrest
      exact ⟨rfl, rfl⟩
    · cases hrun
      exact ⟨rfl, rfl⟩

theorem popContext_sameDisk (b : CriticalBlock) (cpu : ℕ) (type : CriticalEdgeType) :
    SameDisk b (b.popContext cpu type) := by
  unfold popContext
  split
  · exact ⟨rfl, rfl⟩
  · split
    · exact ⟨rfl, rfl⟩
    · exact ⟨rfl, rfl⟩

theorem onInetSockLocalIn_sameDisk (b : CriticalBlock) (cpu : ℕ) (key : PacketKey) :
    SameDisk b (b.onInetSockLocalIn cpu key) := by
  unfold onInetSockLocalIn
  split
  · exact ⟨rfl, rfl⟩
  · split
    · exact ⟨rfl, rfl⟩
    · exact ⟨rfl, rfl⟩

theorem onThreadName_sameDisk (b : CriticalBlock) (tid : ℕ) (name : Option Bytes) :
    SameDisk b (b.onThreadName tid name) := by
  unfold onThreadName
  split
  · exact ⟨rfl, rfl⟩
  · split
    · exact ⟨rfl, rfl⟩
    · split
      · exact ⟨rfl, rfl⟩
      · exact ⟨rfl, rfl⟩

theorem onEvent_addsWaits {kInvalidThread : ℕ} {event : Event}
    (hrun : b.onEvent kInvalidThread event = .ok b') : AddsWaits b b' := by
  cases event with
  | ttwu cpu sourceTid targetTid =>
      unfold onEvent onTTWU at hrun
      dsimp only at hrun
      split at hrun
      · exact onWakeupFromInterrupt_addsWaits hrun
      · split at hrun
        · exact onTTWUBetweenThreads_addsWaits hrun
        · cases hrun
          exact addsWaits_of_same rfl rfl
  | inetSockLocalOut cpu tid key => exact (onInetSockLocalOut_sameDisk hrun).addsWaits
  | threadStatus tid status => exact (onThreadStatus_sameDisk hrun).addsWaits
  | softIrqExit cpu _ | irqHandlerExit cpu _ | hrtimerExpireExit cpu =>
      cases hrun
      exact (popContext_sameDisk b cpu _).addsWaits
  | inetSockLocalIn cpu key =>
      cases hrun
      exact (onInetSockLocalIn_sameDisk b cpu key).addsWaits
  | threadName tid name =>
      cases hrun
      exact (onThreadName_sameDisk b tid name).addsWaits
  | softIrqEntry _ _ | irqHandlerEntry _ _ | hrtimerExpireEntry _ =>
      cases hrun
      exact addsWaits_of_same rfl rfl

end CriticalBlock

end TibeeCompare.CriticalBlocks
