import TibeeCompare.Critical.CallSteps
import TibeeCompare.Critical.Spares

/-!
The answers of a path search before and after a cleanup.

The search reads more than the nodes that are not older than the cutoff. It starts with the node
before the window, which a cleanup removes when it is older, although its edge reaches into the
window, and a wake-up or a packet leads to nodes of any time. `Kept` says of a slot that it reads
the same after the cleanup. When all slots that the calls of a search follow are kept, the calls
have the same scripts before and after.
-/

namespace TibeeCompare.Critical

open Relation

namespace CriticalGraph

/-- The slot is of a node that is not older than the cutoff, leads to such a node, and is not
cleared on behalf of an older one. -/
def Kept (g : CriticalGraph) (cutoff n : ℕ) (p : CriticalEdgePosition) : Prop :=
  g.Stays cutoff n ∧ ∀ far, g.PointsTo n p far → g.Stays cutoff far ∧ g.Firm cutoff n p

/-- What is read of a packet that was received at `w`. A packet without a sender is not followed,
so that its node may be freed, if the slot that leads to it is cleared then. -/
def PacketKept (g : CriticalGraph) (cutoff w : ℕ) : Prop :=
  ∀ p, g.Precedes p w → match g.slot p .inVertical with
    | some _ => g.Kept cutoff w .inHorizontal ∧ g.Kept cutoff p .inVertical
    | none => g.Stays cutoff p ∨
        (g.slot p .outHorizontal = g.slot w .inHorizontal ∧ g.Firm cutoff p .outHorizontal)

/-- What is read to resolve a wait that ends at `m`. -/
def WaitKept (g : CriticalGraph) (cutoff m : ℕ) : Prop :=
  g.Kept cutoff m .inVertical ∧ ∀ w, g.Wakes w m →
    (∃ ts, g.label w = some (ts, kNetworkThread)) → g.PacketKept cutoff w

/-- A round of the last loop of a call. -/
def Passes (g : CriticalGraph) (endTs n m : ℕ) : Prop :=
  g.tsOf n ≤ endTs ∧ g.Follow n m

/-- What the last loop reads, from `n` on. -/
def LoopKept (g : CriticalGraph) (cutoff endTs n : ℕ) : Prop :=
  g.Stays cutoff n ∧ ∀ k, ReflTransGen (g.Passes endTs) n k → g.tsOf k ≤ endTs →
    g.Kept cutoff k .outHorizontal ∧ ∀ id edge, g.slot k .outHorizontal = some id →
      g.edges id = some edge → edge.type.isBlocked → g.WaitKept cutoff edge.toNode

/-- A round of the first loop of a call, which stops at a node that was woken up. -/
def Searches (g : CriticalGraph) (endTs n m : ℕ) : Prop :=
  g.tsOf n ≤ endTs ∧ g.slot n .inVertical = none ∧ g.Follow n m

/-- What the first loop reads, from `n` on. -/
def SearchKept (g : CriticalGraph) (cutoff endTs n : ℕ) : Prop :=
  g.Stays cutoff n ∧ ∀ k, ReflTransGen (g.Searches endTs) n k → g.tsOf k ≤ endTs →
    g.Kept cutoff k .inVertical ∧
      (g.slot k .inVertical = none → g.Kept cutoff k .outHorizontal)

/-- The last node of a thread up to `ts`, with which `GetNodeIntersecting` starts. -/
def lastUpTo (g : CriticalGraph) (ts tid : ℕ) : Option ℕ :=
  ((g.nodesOf tid).takeWhile fun n => g.tsOf n ≤ ts).getLast?

end CriticalGraph

/-- All slots that a call reads are kept. -/
structure Call.Spared (g : CriticalGraph) (cutoff : ℕ) (call : Call) : Prop where
  /-- A thread that ended before the cutoff is not found, with its last node or without. -/
  start : ∀ n, g.lastUpTo call.startTs call.tid = some n →
    g.Kept cutoff n .outHorizontal ∨
      (g.getNodeIntersecting call.startTs call.tid = .ok none ∧ g.tsOf n < cutoff)
  found : ∀ n, g.getNodeIntersecting call.startTs call.tid = .ok (some n) →
    g.LoopKept cutoff call.endTs n
  search : ∀ first, g.getNodeIntersecting call.startTs call.tid = .ok none →
    g.getNodeStartingAfter call.startTs call.tid = some first →
      g.SearchKept cutoff call.endTs first
  woken : ∀ first n id, g.getNodeIntersecting call.startTs call.tid = .ok none →
    g.getNodeStartingAfter call.startTs call.tid = some first →
      findWakeUp g call.endTs g.rounds (some first) = .ok (some (n, id)) →
        g.LoopKept cutoff call.endTs n
  missed : ∀ first, g.getNodeIntersecting call.startTs call.tid = .ok none →
    g.getNodeStartingAfter call.startTs call.tid = some first →
      findWakeUp g call.endTs g.rounds (some first) = .ok none →
        g.LoopKept cutoff call.endTs first

namespace CriticalGraph

/-! ### Reading a graph after a cleanup -/

section reading

variable {g g' : CriticalGraph} {cutoff : ℕ}

theorem SlotsSound.exists_edge (h : SlotsSound noStale g) {n id : ℕ} {node : CriticalNode}
    {p : CriticalEdgePosition} (hnode : g.heap n = some node) (hid : node.edge p = some id) :
    ∃ edge, g.edges id = some edge ∧ g.PointsTo n p (edge.endpoint p.opposite) := by
  have hslot := (slot_of_heap hnode p).trans hid
  obtain ⟨edge, hedge, -⟩ := h.stored not_false hslot
  exact ⟨edge, hedge, id, edge, hslot, hedge, rfl⟩

theorem Stays.heap {n : ℕ} (h : g.Stays cutoff n) :
    ∃ node, g.heap n = some node ∧ cutoff ≤ node.ts := by
  obtain ⟨⟨ts, tid⟩, hlabel, hle⟩ := h
  obtain ⟨node, hnode, rfl, -⟩ := heap_of_label hlabel
  exact ⟨node, hnode, hle⟩

theorem Spares.heap (hs : g.Spares cutoff g') {n : ℕ} {node : CriticalNode}
    (hn : g.Stays cutoff n) (hnode : g.heap n = some node) :
    ∃ node', g'.heap n = some node' ∧ node'.ts = node.ts ∧ node'.tid = node.tid := by
  obtain ⟨label, hlabel, hle⟩ := hn
  rw [label_of_heap hnode] at hlabel
  obtain rfl := Option.some.inj hlabel
  exact heap_of_label (hs.label (label_of_heap hnode) hle)

theorem Spares.edge_none (hs : g.Spares cutoff g') {n : ℕ} {node node' : CriticalNode}
    (hnode : g.heap n = some node) (hnode' : g'.heap n = some node') {p : CriticalEdgePosition}
    (hslot : node.edge p = none) : node'.edge p = none := by
  rw [← slot_of_heap hnode] at hslot
  rw [← slot_of_heap hnode']
  exact hs.below.slot_none hslot

/-- A kept slot reads the same, with its edge and the node at the other end. -/
theorem Spares.edge_some (hs : g.Spares cutoff g') {n : ℕ} {node node' : CriticalNode}
    {p : CriticalEdgePosition} (hkept : g.Kept cutoff n p) (hnode : g.heap n = some node)
    (hnode' : g'.heap n = some node') {e : ℕ} {edge : CriticalEdge}
    (hslot : node.edge p = some e) (hedge : g.edges e = some edge) :
    node'.edge p = some e ∧ g'.edges e = some edge ∧
      g.Stays cutoff (edge.endpoint p.opposite) := by
  rw [← slot_of_heap hnode] at hslot
  obtain ⟨hfar, hfirm⟩ := hkept.2 _ ⟨e, edge, hslot, hedge, rfl⟩
  obtain ⟨hslot', hedge'⟩ := hs.slot hslot hedge hfirm hkept.1 hfar
  rw [slot_of_heap hnode'] at hslot'
  exact ⟨hslot', hedge', hfar⟩

/-- At a timestamp from the cutoff on, the vectors before and after a cleanup are
cut at the same place. -/
theorem Spares.cut (hs : g.Spares cutoff g') (ho : g.Owned) {ts : ℕ} (hle : cutoff ≤ ts)
    (tid : ℕ) :
    (g.nodesOf tid).dropWhile (fun n => g.tsOf n ≤ ts) =
        (g'.nodesOf tid).dropWhile (fun n => g'.tsOf n ≤ ts) ∧
      ∃ removed, (g.nodesOf tid).takeWhile (fun n => g.tsOf n ≤ ts) =
          removed ++ (g'.nodesOf tid).takeWhile (fun n => g'.tsOf n ≤ ts) ∧
        ∀ n ∈ removed, g.tsOf n < cutoff := by
  obtain ⟨removed, hsplit⟩ := hs.below.nodesOf (t := tid)
  have hnodup := ho.nodup tid
  rw [← hsplit] at hnodup
  have hremoved : ∀ n ∈ removed, g.tsOf n < cutoff := by
    intro n hn
    by_contra hkept
    have hmem : n ∈ g.nodesOf tid := by
      rw [← hsplit]
      exact List.mem_append_left _ hn
    have hmem' := hs.mem_nodesOf ho hmem (not_lt.mp hkept)
    exact (List.nodup_append.mp hnodup).2.2 n hn n hmem' rfl
  have hpos : ∀ n ∈ removed, decide (g.tsOf n ≤ ts) = true := by
    intro n hn
    have hlt := hremoved n hn
    simp only [decide_eq_true_eq]
    omega
  obtain ⟨htake, hdrop⟩ := SortedLists.cut_congr (l := g'.nodesOf tid)
    (p := fun n => decide (g.tsOf n ≤ ts)) (q := fun n => decide (g'.tsOf n ≤ ts)) (by
      intro n hn
      rw [hs.below.tsOf (hs.owned.label_of_mem hn)])
  rw [← hsplit, List.dropWhile_append_of_pos hpos, List.takeWhile_append_of_pos hpos, htake, hdrop]
  exact ⟨rfl, removed, rfl, hremoved⟩

theorem Spares.getNodeStartingAfter (hs : g.Spares cutoff g') (ho : g.Owned) {ts : ℕ}
    (hle : cutoff ≤ ts) (tid : ℕ) :
    g'.getNodeStartingAfter ts tid = g.getNodeStartingAfter ts tid := by
  simp only [CriticalGraph.getNodeStartingAfter, (hs.cut ho hle tid).1]

/-- The last node up to a timestamp is the same, or older than the cutoff and gone. -/
theorem Spares.lastUpTo (hs : g.Spares cutoff g') (ho : g.Owned) {ts : ℕ} (hle : cutoff ≤ ts)
    (tid : ℕ) : g'.lastUpTo ts tid = g.lastUpTo ts tid ∨
      (g'.lastUpTo ts tid = none ∧ ∃ n, g.lastUpTo ts tid = some n ∧ ¬ g.Stays cutoff n) := by
  obtain ⟨-, removed, htake, hremoved⟩ := hs.cut ho hle tid
  simp only [CriticalGraph.lastUpTo, htake, List.getLast?_append]
  cases hlast : ((g'.nodesOf tid).takeWhile fun n => g'.tsOf n ≤ ts).getLast? with
  | some n => exact .inl rfl
  | none =>
      cases hold : removed.getLast? with
      | none => exact .inl rfl
      | some n =>
          refine .inr ⟨rfl, n, rfl, fun hstays => ?_⟩
          exact absurd hstays.le_tsOf (not_le.mpr (hremoved n (List.mem_of_getLast? hold)))

theorem getNodeIntersecting_of_lastUpTo {ts tid : ℕ} (hlast : g.lastUpTo ts tid = none) :
    g.getNodeIntersecting ts tid = .ok none := by
  unfold CriticalGraph.lastUpTo at hlast
  unfold CriticalGraph.getNodeIntersecting
  rw [hlast]
  rfl

/-- The node at the start of a window is the same. -/
theorem Spares.getNodeIntersecting (hs : g.Spares cutoff g') (ho : g.Owned)
    (hg : SlotsSound noStale g) {ts tid : ℕ} (hle : cutoff ≤ ts)
    (hstart : ∀ n, g.lastUpTo ts tid = some n → g.Kept cutoff n .outHorizontal ∨
      (g.getNodeIntersecting ts tid = .ok none ∧ g.tsOf n < cutoff)) :
    g'.getNodeIntersecting ts tid = g.getNodeIntersecting ts tid := by
  rcases hs.lastUpTo ho hle tid with hlast' | ⟨hnone, n, hlast, hgone⟩
  · cases hlast : g.lastUpTo ts tid with
    | none =>
        rw [getNodeIntersecting_of_lastUpTo hlast,
          getNodeIntersecting_of_lastUpTo (hlast'.trans hlast)]
    | some n =>
        rw [hlast] at hlast'
        have hmem' : n ∈ g'.nodesOf tid :=
          (List.takeWhile_sublist _).subset (List.mem_of_getLast? hlast')
        have hstays := hs.stays (hs.owned.label_of_mem hmem')
        rcases hstart n hlast with hkept | ⟨-, hlt⟩
        swap
        · exact absurd hstays.le_tsOf (not_le.mpr hlt)
        obtain ⟨node, hnode, -⟩ := hstays.heap
        obtain ⟨node', hnode', hts, -⟩ := hs.heap hstays hnode
        unfold CriticalGraph.lastUpTo at hlast hlast'
        simp only [CriticalGraph.getNodeIntersecting, hlast, hlast', deref_of_heap hnode,
          deref_of_heap hnode', hts, bind, Except.bind]
        cases hout : node.edge .outHorizontal with
        | none => rw [hs.edge_none hnode hnode' hout]
        | some e =>
            obtain ⟨edge, hedge, -⟩ := hg.exists_edge hnode hout
            obtain ⟨hout', hedge', hto⟩ := hs.edge_some hkept hnode hnode' hout hedge
            obtain ⟨toNode, htoNode, -⟩ := hto.heap
            obtain ⟨toNode', htoNode', htoTs, -⟩ := hs.heap hto htoNode
            have hto' : g.heap edge.toNode = some toNode := htoNode
            have hto'' : g'.heap edge.toNode = some toNode' := htoNode'
            simp only [hout', getEdge, hedge, hedge', deref_of_heap hto', deref_of_heap hto'',
              htoTs]
  · rw [getNodeIntersecting_of_lastUpTo hnone]
    rcases hstart n hlast with hkept | ⟨hnone', -⟩
    · exact absurd hkept.1 hgone
    · exact hnone'.symm

/-! ### The first loop -/

theorem SearchKept.next {endTs n m : ℕ} (h : g.SearchKept cutoff endTs n)
    (hm : g.Stays cutoff m) (hstep : g.Searches endTs n m) : g.SearchKept cutoff endTs m :=
  ⟨hm, fun k hk => h.2 k (.head hstep hk)⟩

/-- The first loop finds the same wake-up. -/
theorem Spares.findWakeUp (hs : g.Spares cutoff g') (hg : SlotsSound noStale g) (endTs : ℕ)
    {n : ℕ} (hkept : g.SearchKept cutoff endTs n) (rounds : ℕ) :
    Critical.findWakeUp g' endTs rounds (some n) = Critical.findWakeUp g endTs rounds (some n) := by
  induction rounds generalizing n with
  | zero => rfl
  | succ rounds ih =>
      obtain ⟨node, hnode, -⟩ := hkept.1.heap
      obtain ⟨node', hnode', hts, -⟩ := hs.heap hkept.1 hnode
      simp only [Critical.findWakeUp, deref_of_heap hnode, deref_of_heap hnode', bind, Except.bind,
        hts]
      split
      · next hend =>
          rw [← tsOf_of_heap hnode] at hend
          obtain ⟨hin, hout⟩ := hkept.2 n .refl hend
          rw [slot_of_heap hnode] at hout
          cases hid : node.edge .inVertical with
          | some id =>
              obtain ⟨edge, hedge, -⟩ := hg.exists_edge hnode hid
              rw [(hs.edge_some hin hnode hnode' hid hedge).1]
          | none =>
              rw [hs.edge_none hnode hnode' hid]
              simp only
              cases hnext : node.edge .outHorizontal with
              | none => rw [hs.edge_none hnode hnode' hnext]
              | some e =>
                  obtain ⟨edge, hedge, hfollow⟩ := hg.exists_edge hnode hnext
                  obtain ⟨hnext', hedge', hto⟩ :=
                    hs.edge_some (hout hid) hnode hnode' hnext hedge
                  simp only [hnext', getEdge, hedge, hedge']
                  refine ih (hkept.next hto ⟨hend, ?_, hfollow⟩)
                  rw [slot_of_heap hnode, hid]
      · rfl

/-- The wake-up that the first loop finds is kept. -/
theorem SearchKept.hit {endTs n m id : ℕ} (hg : SlotsSound noStale g)
    (hkept : g.SearchKept cutoff endTs n) {rounds : ℕ}
    (hfind : Critical.findWakeUp g endTs rounds (some n) = .ok (some (m, id))) :
    g.Kept cutoff m .inVertical ∧ g.slot m .inVertical = some id := by
  induction rounds generalizing n with
  | zero => cases hfind
  | succ rounds ih =>
      obtain ⟨node, hnode, -⟩ := hkept.1.heap
      simp only [Critical.findWakeUp, deref_of_heap hnode, bind, Except.bind] at hfind
      split at hfind
      · next hend =>
          rw [← tsOf_of_heap hnode] at hend
          obtain ⟨hin, hout⟩ := hkept.2 n .refl hend
          rw [slot_of_heap hnode] at hout
          cases hid : node.edge .inVertical with
          | some id' =>
              rw [hid] at hfind
              obtain ⟨rfl, rfl⟩ := Prod.mk.inj (Option.some.inj (Except.ok.inj hfind))
              exact ⟨hin, (slot_of_heap hnode _).trans hid⟩
          | none =>
              rw [hid] at hfind
              simp only at hfind
              cases hnext : node.edge .outHorizontal with
              | none =>
                  rw [hnext] at hfind
                  cases hfind
              | some e =>
                  obtain ⟨edge, hedge, hfollow⟩ := hg.exists_edge hnode hnext
                  simp only [hnext, getEdge, hedge] at hfind
                  have hto := ((hout hid).2 _ hfollow).1
                  refine ih (hkept.next hto ⟨hend, ?_, hfollow⟩) hfind
                  rw [slot_of_heap hnode, hid]
      · cases hfind

end reading

end CriticalGraph

/-! ### Scripts after a cleanup -/

section scripts

open CriticalGraph

variable {g g' : CriticalGraph} {cutoff : ℕ}

/-- What `blockedScript` does once the waker is known. -/
def wakerScript (g : CriticalGraph) (waker startTs endTs : ℕ) : Script :=
  reading (g.deref waker) fun endNode =>
    if endNode.tid = kNetworkThread then
      match endNode.edge .inHorizontal with
      | some networkEdgeId =>
          reading (g.getEdge networkEdgeId) fun networkEdge =>
          reading (g.deref networkEdge.fromNode) fun startNode =>
            match startNode.edge .inVertical with
            | some sendEdgeId =>
                reading (g.getEdge sendEdgeId) fun sendEdge =>
                reading (g.deref sendEdge.fromNode) fun sender =>
                  [.ok (.recurse sendEdge.fromNode startTs startNode.ts sender.tid),
                    .ok (.network networkEdge.fromNode waker
                      ⟨startNode.ts, endNode.ts, startNode.tid, networkEdge.type⟩ startTs endTs)]
            | none => sourceScript waker startTs endTs endNode.tid
      | none => sourceScript waker startTs endTs endNode.tid
    else sourceScript waker startTs endTs endNode.tid

theorem blockedScript_of_wakeUp {edge wakeUp : CriticalEdge} {toNode : CriticalNode} {id : ℕ}
    (hto : g.heap edge.toNode = some toNode) (hin : toNode.edge .inVertical = some id)
    (hwakeUp : g.edges id = some wakeUp) (startTs endTs : ℕ) :
    blockedScript g edge startTs endTs = wakerScript g wakeUp.fromNode startTs endTs := by
  simp only [blockedScript, deref_of_heap hto, hin, getEdge, hwakeUp, reading_ok]
  rfl

/-- A packet that nobody sent: the wait is resolved with the waker, whether the slot that leads
to the packet's node is left or not. -/
theorem CriticalGraph.Spares.no_sender (hs : g.Spares cutoff g') (hg : SlotsSound noStale g)
    {w id : ℕ} {node node' : CriticalNode} {edge : CriticalEdge} (hw : g.Stays cutoff w)
    (hnode : g.heap w = some node) (hnode' : g'.heap w = some node')
    (hin : node.edge .inHorizontal = some id) (hedge : g.edges id = some edge)
    (hsend : g.slot edge.fromNode .inVertical = none)
    (hpacket : g.Stays cutoff edge.fromNode ∨
      (g.slot edge.fromNode .outHorizontal = g.slot w .inHorizontal ∧
        g.Firm cutoff edge.fromNode .outHorizontal)) :
    node'.edge .inHorizontal = none ∨ (node'.edge .inHorizontal = some id ∧
      g'.edges id = some edge ∧ ∃ startNode, g'.heap edge.fromNode = some startNode ∧
        startNode.edge .inVertical = none) := by
  have hslot : g.slot w .inHorizontal = some id := (slot_of_heap hnode _).trans hin
  by_cases hstart : g.Stays cutoff edge.fromNode
  · cases hin' : node'.edge .inHorizontal with
    | none => exact .inl rfl
    | some id' =>
        have hslot' : g'.slot w .inHorizontal = some id' := (slot_of_heap hnode' _).trans hin'
        have hold := hs.below.slot hslot'
        rw [hslot] at hold
        obtain rfl := Option.some.inj hold
        obtain ⟨edge', hedge', -⟩ := hs.sound.stored not_false hslot'
        have hold := hs.below.edges hedge'
        rw [hedge] at hold
        obtain rfl := Option.some.inj hold
        obtain ⟨startNode, hstartNode, -⟩ := hstart.heap
        obtain ⟨startNode', hstartNode', -⟩ := hs.heap hstart hstartNode
        rw [slot_of_heap hstartNode] at hsend
        exact .inr ⟨rfl, hedge', startNode', hstartNode',
          hs.edge_none hstartNode hstartNode' hsend⟩
  · obtain ⟨hheld, hfirm⟩ := hpacket.resolve_left hstart
    rw [hslot] at hheld
    have hfar : edge.toNode = w := hg.endpoint_eq not_false hslot hedge
    have hcleared : g'.slot w .inHorizontal = none :=
      hs.cleared ⟨id, edge, hheld, hedge, hfar⟩ hfirm hstart hw
    exact .inl ((slot_of_heap hnode' _).symm.trans hcleared)

theorem wakerScript_spares (hs : g.Spares cutoff g') (hg : SlotsSound noStale g) {w : ℕ}
    (hw : g.Stays cutoff w)
    (hpacket : (∃ ts, g.label w = some (ts, kNetworkThread)) → g.PacketKept cutoff w)
    (startTs endTs : ℕ) : wakerScript g' w startTs endTs = wakerScript g w startTs endTs := by
  obtain ⟨node, hnode, -⟩ := hw.heap
  obtain ⟨node', hnode', hts, htid⟩ := hs.heap hw hnode
  rw [wakerScript, wakerScript, deref_of_heap hnode, deref_of_heap hnode', reading_ok, reading_ok,
    htid, hts]
  split
  swap
  · rfl
  next hnetwork =>
  cases hin : node.edge .inHorizontal with
  | none => rw [hs.edge_none hnode hnode' hin]
  | some networkId =>
      obtain ⟨networkEdge, hnetworkEdge, hprecedes⟩ := hg.exists_edge hnode hin
      have hkept := hpacket ⟨node.ts, by rw [label_of_heap hnode, hnetwork]⟩ _ hprecedes
      have hfrom : networkEdge.endpoint (CriticalEdgePosition.opposite .inHorizontal) =
        networkEdge.fromNode := rfl
      rw [hfrom] at hkept
      cases hsend : g.slot networkEdge.fromNode .inVertical with
      | none =>
          rw [hsend] at hkept
          -- the slot of the waker shows that the packet's node is still there
          have hstart : ∃ startNode, g.heap networkEdge.fromNode = some startNode := by
            rcases hkept with hstays | ⟨hheld, -⟩
            · exact ⟨_, hstays.heap.choose_spec.1⟩
            · rw [slot_of_heap hnode, hin] at hheld
              obtain ⟨label, hlabel⟩ := label_of_slot hheld
              exact ⟨_, (heap_of_label hlabel).choose_spec.1⟩
          obtain ⟨startNode, hstart⟩ := hstart
          rw [slot_of_heap hstart] at hsend
          simp only [getEdge, hnetworkEdge, reading_ok, deref_of_heap hstart, hsend]
          rcases hs.no_sender hg hw hnode hnode' hin hnetworkEdge
            (by rw [slot_of_heap hstart, hsend]) hkept with
            hnone | ⟨hin', hnetworkEdge', startNode', hstart', hsend'⟩
          · rw [hnone]
          · simp only [hin', hnetworkEdge', reading_ok, deref_of_heap hstart', hsend']
      | some sendId =>
          rw [hsend] at hkept
          obtain ⟨hkeptIn, hkeptSend⟩ := hkept
          obtain ⟨hin', hnetworkEdge', hstays⟩ :=
            hs.edge_some hkeptIn hnode hnode' hin hnetworkEdge
          obtain ⟨startNode, hstart, -⟩ := hkeptSend.1.heap
          obtain ⟨startNode', hstart', hstartTs, hstartTid⟩ := hs.heap hkeptSend.1 hstart
          rw [slot_of_heap hstart] at hsend
          obtain ⟨sendEdge, hsendEdge, -⟩ := hg.exists_edge hstart hsend
          obtain ⟨hsend', hsendEdge', hsource⟩ :=
            hs.edge_some hkeptSend hstart hstart' hsend hsendEdge
          obtain ⟨sender, hsender, -⟩ := hsource.heap
          obtain ⟨sender', hsender', -, hsenderTid⟩ := hs.heap hsource hsender
          have hsource : g.heap sendEdge.fromNode = some sender := hsender
          have hsource' : g'.heap sendEdge.fromNode = some sender' := hsender'
          simp only [hin', getEdge, hnetworkEdge, hnetworkEdge', reading_ok, deref_of_heap hstart,
            deref_of_heap hstart', hsend, hsend', hsendEdge, hsendEdge', deref_of_heap hsource,
            deref_of_heap hsource', hstartTs, hstartTid, hsenderTid]

theorem blockedScript_spares (hs : g.Spares cutoff g') (hg : SlotsSound noStale g)
    {edge : CriticalEdge} (hkept : g.WaitKept cutoff edge.toNode) (startTs endTs : ℕ) :
    blockedScript g' edge startTs endTs = blockedScript g edge startTs endTs := by
  obtain ⟨hwait, hpacket⟩ := hkept
  obtain ⟨toNode, hto, -⟩ := hwait.1.heap
  obtain ⟨toNode', hto', -, htid⟩ := hs.heap hwait.1 hto
  cases hin : toNode.edge .inVertical with
  | none =>
      simp only [blockedScript, deref_of_heap hto, deref_of_heap hto', reading_ok, hin,
        hs.edge_none hto hto' hin, htid]
  | some id =>
      obtain ⟨wakeUp, hwakeUp, hwakes⟩ := hg.exists_edge hto hin
      obtain ⟨hin', hwakeUp', hw⟩ := hs.edge_some hwait hto hto' hin hwakeUp
      rw [blockedScript_of_wakeUp hto hin hwakeUp, blockedScript_of_wakeUp hto' hin' hwakeUp']
      exact wakerScript_spares hs hg hw (hpacket _ hwakes) startTs endTs

theorem traverseScript_spares (hs : g.Spares cutoff g') (hg : SlotsSound noStale g)
    (startTs : ℕ) {endTs n : ℕ} (tid : ℕ) (hkept : g.LoopKept cutoff endTs n) (rounds : ℕ) :
    traverseScript g' startTs endTs tid rounds (some n) =
      traverseScript g startTs endTs tid rounds (some n) := by
  induction rounds generalizing n with
  | zero => rfl
  | succ rounds ih =>
      obtain ⟨hn, hloop⟩ := hkept
      obtain ⟨node, hnode, -⟩ := hn.heap
      obtain ⟨node', hnode', hts, -⟩ := hs.heap hn hnode
      rcases Nat.lt_or_ge endTs node.ts with hpast | hend
      · rw [traverseScript_past (deref_of_heap hnode) hpast,
          traverseScript_past (deref_of_heap hnode') (hts ▸ hpast)]
      have hle : g.tsOf n ≤ endTs := by rwa [tsOf_of_heap hnode]
      obtain ⟨hout, hwaits⟩ := hloop n .refl hle
      cases hnext : node.edge .outHorizontal with
      | none =>
          rw [traverseScript_last (deref_of_heap hnode) hnext,
            traverseScript_last (deref_of_heap hnode') (hs.edge_none hnode hnode' hnext)]
      | some id =>
          obtain ⟨edge, hedge, hfollow⟩ := hg.exists_edge hnode hnext
          obtain ⟨hnext', hedge', hto⟩ := hs.edge_some hout hnode hnode' hnext hedge
          obtain ⟨toNode, htoNode, -⟩ := hto.heap
          obtain ⟨toNode', htoNode', htoTs, -⟩ := hs.heap hto htoNode
          have hstep : g.LoopKept cutoff endTs edge.toNode :=
            ⟨hto, fun k hk => hloop k (.head ⟨hle, hfollow⟩ hk)⟩
          rw [traverseScript_step (deref_of_heap hnode) hend hnext hedge (deref_of_heap htoNode),
            traverseScript_step (deref_of_heap hnode') (hts ▸ hend) hnext' hedge'
              (deref_of_heap htoNode'), hts, htoTs, ih hstep]
          congr 1
          unfold edgeScript
          split
          · next hblocked =>
              have hslot := (slot_of_heap hnode _).trans hnext
              exact blockedScript_spares hs hg (hwaits id edge hslot hedge hblocked) _ _
          · rfl

theorem callScript_spares (hs : g.Spares cutoff g') (ho : g.Owned) (hg : SlotsSound noStale g)
    {call : Call} (hle : cutoff ≤ call.startTs)
    (hspared : call.startTs < call.endTs → call.Spared g cutoff) :
    call.script g' = call.script g := by
  obtain ⟨startTs, endTs, tid⟩ := call
  by_cases hempty : endTs ≤ startTs
  · simp only [Call.script, callScript, if_pos hempty]
  have hspared := hspared (not_le.mp hempty)
  have hrounds : g'.rounds = g.rounds := by
    simp only [CriticalGraph.rounds, hs.below.nextNode]
  have hnode := hs.getNodeIntersecting ho hg hle hspared.start
  have hafter := hs.getNodeStartingAfter ho hle tid
  dsimp only at hnode
  simp only [Call.script, callScript, if_neg hempty, hnode, hafter, hrounds]
  cases hfound : g.getNodeIntersecting startTs tid with
  | error fault => rfl
  | ok found =>
      cases found with
      | some n => exact traverseScript_spares hs hg startTs tid (hspared.found n hfound) _
      | none =>
          cases hfirst : g.getNodeStartingAfter startTs tid with
          | none => simp only [findWakeUp_none, reading_ok, traverseScript_none]
          | some first =>
              have hsearch := hspared.search first hfound hfirst
              simp only [reading_ok, hs.findWakeUp hg endTs hsearch g.rounds]
              cases hfind : findWakeUp g endTs g.rounds (some first) with
              | error fault => rfl
              | ok hit =>
                  cases hit with
                  | some hit =>
                      obtain ⟨m, id⟩ := hit
                      have hloop := hspared.woken first m id hfound hfirst hfind
                      obtain ⟨hkept, hslot⟩ := hsearch.hit hg hfind
                      obtain ⟨node, hm, -⟩ := hkept.1.heap
                      obtain ⟨node', hm', hts, -⟩ := hs.heap hkept.1 hm
                      rw [slot_of_heap hm] at hslot
                      obtain ⟨wakeUp, hwakeUp, -⟩ := hg.exists_edge hm hslot
                      obtain ⟨-, hwakeUp', hw⟩ := hs.edge_some hkept hm hm' hslot hwakeUp
                      obtain ⟨source, hsource, -⟩ := hw.heap
                      obtain ⟨source', hsource', -, htid⟩ := hs.heap hw hsource
                      have hsource : g.heap wakeUp.fromNode = some source := hsource
                      have hsource' : g'.heap wakeUp.fromNode = some source' := hsource'
                      simp only [reading_ok, deref_of_heap hm, deref_of_heap hm', getEdge, hwakeUp,
                        hwakeUp', deref_of_heap hsource, deref_of_heap hsource', hts, htid,
                        traverseScript_spares hs hg startTs tid hloop]
                  | none =>
                      have hloop := hspared.missed first hfound hfirst hfind
                      obtain ⟨label, hlabel, hold⟩ := hloop.1
                      simp only [reading_ok, hs.below.tsOf (hs.label hlabel hold),
                        traverseScript_spares hs hg startTs tid hloop]

end scripts

section

open CriticalGraph

/-- Thread 1 runs from 0 to 5 and from 5 to 10. -/
def twoRuns : CriticalGraph :=
  let g := ((empty.createNode 1).1.setTimestamp 5).createNode 1
  let g := (g.1.setTimestamp 10).createNode 1
  let g := g.1.withEdge ⟨.run, 0, 1⟩ .outHorizontal
  g.withEdge ⟨.run, 1, 2⟩ .outHorizontal

theorem built_twoRuns : twoRuns.Built := by
  have hnodes := ((((Built.empty.createNode 1).setTimestamp 5).createNode 1).setTimestamp
    10).createNode 1
  have hfirst := hnodes.createHorizontalEdge
    (show createHorizontalEdge _ .run 0 1 = _ from createEdge_of_label rfl rfl)
  exact hfirst.createHorizontalEdge
    (show createHorizontalEdge _ .run 1 2 = _ from createEdge_of_label rfl rfl)

theorem threaded_twoRuns : twoRuns.Threaded :=
  Threaded.of_keys built_twoRuns.owned (by decide)

/-- In the end, thread 1 wakes up two other threads at its last node, so that the slot with the
first wake-up is overwritten. -/
def twoWakeUps : CriticalGraph :=
  let g := ((twoRuns.createNode 2).1.createNode 3).1.withEdge ⟨.vertical, 2, 3⟩ .outVertical
  g.withEdge ⟨.vertical, 2, 4⟩ .outVertical

theorem built_twoWakeUps : twoWakeUps.Built := by
  have hnodes := (built_twoRuns.createNode 2).createNode 3
  have hfirst := hnodes.createVerticalEdge
    (show createVerticalEdge _ 2 3 = _ from createEdge_of_label rfl rfl)
  exact hfirst.createVerticalEdge
    (show createVerticalEdge _ 2 4 = _ from createEdge_of_label rfl rfl)

/-- Only the first node is older than 5, and leads to the second one. -/
theorem eq_of_pointsTo_twoWakeUps {n m : ℕ} {p : CriticalEdgePosition}
    (h : twoWakeUps.PointsTo n p m) (hlt : twoWakeUps.tsOf n < 5) :
    n = 0 ∧ p = .outHorizontal ∧ m = 1 := by
  obtain ⟨label, hlabel⟩ := h.exists_label
  have hn : n < 5 := built_twoWakeUps.owned.lt_next hlabel
  have hold : ∀ n < 5, twoWakeUps.tsOf n < 5 → n = 0 := by decide
  obtain rfl := hold n hn hlt
  rw [pointsTo_iff] at h
  cases p with
  | outHorizontal => exact ⟨rfl, rfl, (Option.some.inj h).symm⟩
  | outVertical | inVertical | inHorizontal => cases h

theorem sweepable_twoWakeUps : twoWakeUps.Sweepable 5 := by
  intro n p m hpoints hlt
  obtain ⟨rfl, rfl, rfl⟩ := eq_of_pointsTo_twoWakeUps hpoints hlt
  exact ⟨⟨_, rfl⟩, fun hold => absurd hold (by decide)⟩

theorem firm_twoWakeUps (n : ℕ) (p : CriticalEdgePosition) : twoWakeUps.Firm 5 n p := by
  intro m hpoints hlt
  obtain ⟨rfl, hp, rfl⟩ := eq_of_pointsTo_twoWakeUps hpoints hlt
  cases p with
  | inHorizontal => exact .inl rfl
  | outVertical | inVertical | outHorizontal => cases hp

theorem loopKept_twoWakeUps : twoWakeUps.LoopKept 5 10 1 := by
  refine ⟨by decide, fun k hk _ => ?_⟩
  have hnodes : k = 1 ∨ k = 2 := by
    induction hk with
    | refl => exact .inl rfl
    | tail _ hstep ih =>
        have hfollow : twoWakeUps.PointsTo _ .outHorizontal _ := hstep.2
        rw [pointsTo_iff] at hfollow
        rcases ih hstep.1 with rfl | rfl
        · exact .inr (Option.some.inj hfollow).symm
        · cases hfollow
  rcases hnodes with rfl | rfl
  · refine ⟨⟨by decide, fun far hfar => ⟨?_, firm_twoWakeUps 1 _⟩⟩, ?_⟩
    · rw [pointsTo_iff] at hfar
      obtain rfl := Option.some.inj hfar
      decide
    · intro id edge hslot hedge hblocked
      obtain rfl := Option.some.inj hslot
      obtain rfl := Option.some.inj hedge
      cases hblocked
  · refine ⟨⟨by decide, fun far hfar => ?_⟩, ?_⟩
    · rw [pointsTo_iff] at hfar
      cases hfar
    · intro id edge hslot
      cases hslot

end

end TibeeCompare.Critical
