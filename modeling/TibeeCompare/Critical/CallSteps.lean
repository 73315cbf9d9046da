import TibeeCompare.Critical.Calls
import TibeeCompare.Critical.GraphInvariants
import TibeeCompare.Lib.Runs
import Mathlib.Data.List.TakeWhile

/-!
The steps that a call of the path search can make.

On a graph whose slots lead to stored edges between allocated nodes, and whose
horizontal edges lead to later nodes, no call meets a missing edge or a freed
node, and its loops end. `mem_callScript` lists what remains, each step with the
nodes it comes from: a wait is resolved on the thread that ended it, and a thread
that starts late is searched for its first wake-up.
-/

namespace TibeeCompare.Critical

open Runs

namespace CriticalGraph

/-- `w` is the node that woke up the thread of `m` at `m`. -/
def Wakes (g : CriticalGraph) (w m : ℕ) : Prop :=
  ∃ id edge, g.slot m .inVertical = some id ∧ g.edges id = some edge ∧ edge.fromNode = w

/-- `m` follows `n` along a horizontal edge. -/
def Follow (g : CriticalGraph) (n m : ℕ) : Prop :=
  ∃ id edge, g.slot n .outHorizontal = some id ∧ g.edges id = some edge ∧ edge.toNode = m

/-- What one call of the search needs in order to go through. -/
structure Navigable (g : CriticalGraph) : Prop where
  owned : g.Owned
  edge : ∀ {n p e}, g.slot n p = some e → ∃ edge, g.edges e = some edge ∧
    (∃ label, g.label edge.fromNode = some label) ∧ ∃ label, g.label edge.toNode = some label
  forward : ∀ {n m}, g.Follow n m → n < m

/-- Edges lead to nodes that were created later. -/
def EdgesForward (g : CriticalGraph) : Prop :=
  ∀ {e edge}, g.edges e = some edge → edge.fromNode < edge.toNode

theorem SlotsExact.navigable {g : CriticalGraph} (h : SlotsExact noStale g) (ho : g.Owned)
    (hforward : g.EdgesForward) : g.Navigable where
  owned := ho
  edge hslot := by
    obtain ⟨edge, hedge, -⟩ := h.stored not_false hslot
    obtain ⟨out, -, -, -, hfrom, hto⟩ := h.held hedge
    exact ⟨edge, hedge, label_of_slot hfrom, label_of_slot hto⟩
  forward := by
    rintro n m ⟨id, edge, hslot, hedge, rfl⟩
    obtain rfl := h.endpoint_eq not_false hslot hedge
    exact hforward hedge

/-- `n` leads to `m` along a horizontal edge, as seen from `m`. -/
def Precedes (g : CriticalGraph) (n m : ℕ) : Prop :=
  ∃ id edge, g.slot m .inHorizontal = some id ∧ g.edges id = some edge ∧ edge.fromNode = n

/-- The nodes that a loop of the search gets to from `n`. -/
inductive Walk (g : CriticalGraph) : ℕ → ℕ → Prop
  | refl (n : ℕ) : Walk g n n
  | head {n m k : ℕ} : g.Follow n m → Walk g m k → Walk g n k

/-- A property of the first node that is handed on along horizontal edges. -/
theorem Walk.induction {g : CriticalGraph} {P : ℕ → Prop}
    (hstep : ∀ n m, P n → g.Follow n m → P m) {n k : ℕ} (h : g.Walk n k) (hn : P n) : P k := by
  induction h with
  | refl n => exact hn
  | head hfollow _ ih => exact ih (hstep _ _ hn hfollow)

variable {g : CriticalGraph}

theorem Navigable.heap_to (hg : g.Navigable) {n : ℕ} {p : CriticalEdgePosition} {e : ℕ}
    (hslot : g.slot n p = some e) :
    ∃ edge node, g.edges e = some edge ∧ g.heap edge.toNode = some node := by
  obtain ⟨edge, hedge, -, ⟨label, hlabel⟩⟩ := hg.edge hslot
  obtain ⟨node, hnode, -⟩ := heap_of_label hlabel
  exact ⟨edge, node, hedge, hnode⟩

theorem Navigable.heap_from (hg : g.Navigable) {n : ℕ} {p : CriticalEdgePosition} {e : ℕ}
    (hslot : g.slot n p = some e) :
    ∃ edge node, g.edges e = some edge ∧ g.heap edge.fromNode = some node := by
  obtain ⟨edge, hedge, ⟨label, hlabel⟩, -⟩ := hg.edge hslot
  obtain ⟨node, hnode, -⟩ := heap_of_label hlabel
  exact ⟨edge, node, hedge, hnode⟩

theorem Navigable.heap_of_mem (hg : g.Navigable) {n tid : ℕ} (hn : n ∈ g.nodesOf tid) :
    ∃ node, g.heap n = some node ∧ node.ts = g.tsOf n ∧ node.tid = tid :=
  heap_of_label (hg.owned.label_of_mem hn)

/-- The node found at the start of a window, if there is one. -/
theorem getNodeIntersecting_cases (hg : g.Navigable) (ts tid : ℕ) :
    g.getNodeIntersecting ts tid = .ok none ∨
      ∃ n, g.getNodeIntersecting ts tid = .ok (some n) ∧ n ∈ g.nodesOf tid ∧ g.tsOf n ≤ ts ∧
        ∀ m, g.Follow n m → ts ≤ g.tsOf m := by
  unfold getNodeIntersecting
  cases hlast : ((g.nodesOf tid).takeWhile fun n => g.tsOf n ≤ ts).getLast? with
  | none => exact .inl rfl
  | some n =>
      have htake := List.mem_of_getLast? hlast
      have hmem : n ∈ g.nodesOf tid := (List.takeWhile_sublist _).subset htake
      have hle : g.tsOf n ≤ ts := by simpa using List.mem_takeWhile_imp htake
      obtain ⟨node, hnode, hts, -⟩ := hg.heap_of_mem hmem
      simp only [deref_of_heap hnode, bind, Except.bind]
      cases hslot : node.edge .outHorizontal with
      | none =>
          simp only
          split
          · refine .inr ⟨n, rfl, hmem, hle, ?_⟩
            rintro m ⟨id, edge, hid, -⟩
            rw [slot_of_heap hnode, hslot] at hid
            cases hid
          · exact .inl rfl
      | some id =>
          rw [← slot_of_heap hnode] at hslot
          obtain ⟨edge, toNode, hedge, hto⟩ := hg.heap_to hslot
          simp only [getEdge, hedge, deref_of_heap hto]
          split
          · exact .inl rfl
          · next hge =>
              refine .inr ⟨n, rfl, hmem, hle, ?_⟩
              rintro m ⟨id', edge', hid, hedge', rfl⟩
              rw [hslot] at hid
              obtain rfl := Option.some.inj hid
              rw [hedge] at hedge'
              obtain rfl := Option.some.inj hedge'
              rw [tsOf_of_heap hto]
              exact not_lt.mp hge

theorem mem_of_getNodeIntersecting (hg : g.Navigable) {ts tid n : ℕ}
    (h : g.getNodeIntersecting ts tid = .ok (some n)) : n ∈ g.nodesOf tid ∧ g.tsOf n ≤ ts := by
  rcases getNodeIntersecting_cases hg ts tid with hnone | ⟨n', hsome, hmem, hle, -⟩
  · rw [h] at hnone
    cases hnone
  · rw [h] at hsome
    obtain rfl := Option.some.inj (Except.ok.inj hsome)
    exact ⟨hmem, hle⟩

/-- The node that is found is the last one up to the timestamp. -/
theorem getLast?_of_getNodeIntersecting {ts tid n : ℕ}
    (h : g.getNodeIntersecting ts tid = .ok (some n)) :
    ((g.nodesOf tid).takeWhile fun n => g.tsOf n ≤ ts).getLast? = some n := by
  simp only [getNodeIntersecting] at h
  split at h
  · cases h
  · next n' hlast =>
      obtain ⟨node, -, h⟩ := bind_eq_ok.mp h
      rw [hlast]
      split at h
      · split at h
        · exact Except.ok.inj h
        · cases h
      · obtain ⟨edge, -, h⟩ := bind_eq_ok.mp h
        obtain ⟨toNode, -, h⟩ := bind_eq_ok.mp h
        split at h
        · cases h
        · exact Except.ok.inj h

theorem getNodeStartingAfter_mem {ts tid n : ℕ} (h : g.getNodeStartingAfter ts tid = some n) :
    n ∈ g.nodesOf tid ∧ ts < g.tsOf n := by
  have hmem : n ∈ g.nodesOf tid :=
    (List.dropWhile_sublist _).subset (List.mem_of_head? h)
  refine ⟨hmem, ?_⟩
  have hnot := List.head?_dropWhile_not (fun n => decide (g.tsOf n ≤ ts)) (g.nodesOf tid)
  unfold getNodeStartingAfter at h
  rw [h] at hnot
  simpa using hnot

theorem Navigable.lt_nextNode (hg : g.Navigable) {n : ℕ} {node : CriticalNode}
    (hnode : g.heap n = some node) : n < g.nextNode :=
  hg.owned.lt_next (label_of_heap hnode)

/-- The first loop ends with a woken node or with none. -/
theorem findWakeUp_cases (hg : g.Navigable) (endTs : ℕ) {n : ℕ} {node : CriticalNode}
    (hnode : g.heap n = some node) {rounds : ℕ} (hrounds : g.nextNode ≤ n + rounds) :
    findWakeUp g endTs rounds (some n) = .ok none ∨
      ∃ h id hit, findWakeUp g endTs rounds (some n) = .ok (some (h, id)) ∧ g.Walk n h ∧
        g.heap h = some hit ∧ g.tsOf h ≤ endTs ∧ g.slot h .inVertical = some id := by
  induction rounds generalizing n node with
  | zero => exact absurd (hg.lt_nextNode hnode) (not_lt.mpr hrounds)
  | succ rounds ih =>
      simp only [findWakeUp, deref_of_heap hnode, bind, Except.bind]
      split
      · next hle =>
          cases hin : node.edge .inVertical with
          | some id =>
              refine .inr ⟨n, id, node, rfl, .refl n, hnode, ?_, ?_⟩
              · rw [tsOf_of_heap hnode]
                exact hle
              · rw [slot_of_heap hnode, hin]
          | none =>
              cases hout : node.edge .outHorizontal with
              | none => exact .inl rfl
              | some e =>
                  have hslot := hout
                  rw [← slot_of_heap hnode] at hslot
                  obtain ⟨edge, toNode, hedge, hto⟩ := hg.heap_to hslot
                  have hfollow : g.Follow n edge.toNode := ⟨e, edge, hslot, hedge, rfl⟩
                  have hlt := hg.forward hfollow
                  simp only [getEdge, hedge]
                  rcases ih hto (by omega) with h | ⟨h, id, hit, hfind, hwalk, hrest⟩
                  · exact .inl h
                  · exact .inr ⟨h, id, hit, hfind, .head hfollow hwalk, hrest⟩
      · exact .inl rfl

end CriticalGraph

open CriticalGraph

variable {g : CriticalGraph} {x : Except Fault Action}

/-- How a wait that ends at `m`, clipped to a window, is resolved. -/
inductive WaitScript (g : CriticalGraph) (m startTs endTs : ℕ) : Script → Prop
  /-- Nobody woke up the thread. -/
  | blocked (tid : ℕ) (type : CriticalEdgeType) :
      WaitScript g m startTs endTs [.ok (.insert ⟨startTs, endTs, tid, type⟩)]
  | source {w : ℕ} {node : CriticalNode} : g.Wakes w m → g.heap w = some node →
      WaitScript g m startTs endTs (sourceScript w startTs endTs node.tid)
  /-- A packet was sent at `p`, by the thread of `q`, and received at `w`. -/
  | network {w p q : ℕ} {endNode startNode node : CriticalNode} (type : CriticalEdgeType) :
      g.Wakes w m → g.Precedes p w → g.Wakes q p →
      g.heap w = some endNode → g.heap p = some startNode → g.heap q = some node →
      WaitScript g m startTs endTs
        [.ok (.recurse q startTs startNode.ts node.tid),
          .ok (.network p w ⟨startNode.ts, endNode.ts, startNode.tid, type⟩ startTs endTs)]

theorem blockedScript_cases (hg : g.Navigable) {edge : CriticalEdge} {toNode : CriticalNode}
    (hto : g.heap edge.toNode = some toNode) (startTs endTs : ℕ) :
    WaitScript g edge.toNode startTs endTs (blockedScript g edge startTs endTs) := by
  unfold blockedScript
  rw [deref_of_heap hto, reading_ok]
  cases hin : toNode.edge .inVertical with
  | none => exact .blocked ..
  | some id =>
      rw [← slot_of_heap hto] at hin
      obtain ⟨wakeUp, endNode, hwakeUp, hend⟩ := hg.heap_from hin
      have hw : g.Wakes wakeUp.fromNode edge.toNode := ⟨id, wakeUp, hin, hwakeUp, rfl⟩
      simp only [getEdge, hwakeUp, reading_ok, deref_of_heap hend]
      split
      · cases hin' : endNode.edge .inHorizontal with
        | none => exact .source hw hend
        | some networkId =>
            rw [← slot_of_heap hend] at hin'
            obtain ⟨networkEdge, startNode, hnetwork, hstart⟩ := hg.heap_from hin'
            have hp : g.Precedes networkEdge.fromNode wakeUp.fromNode :=
              ⟨networkId, networkEdge, hin', hnetwork, rfl⟩
            simp only [hnetwork, reading_ok, deref_of_heap hstart]
            cases hin'' : startNode.edge .inVertical with
            | none => exact .source hw hend
            | some sendId =>
                rw [← slot_of_heap hstart] at hin''
                obtain ⟨sendEdge, sender, hsend, hsender⟩ := hg.heap_from hin''
                simp only [hsend, reading_ok, deref_of_heap hsender]
                exact .network _ hw hp ⟨sendId, sendEdge, hin'', hsend, rfl⟩ hend hstart hsender
      · exact .source hw hend

theorem blockedScript_fault (hg : g.Navigable) {edge : CriticalEdge} {toNode : CriticalNode}
    (hto : g.heap edge.toNode = some toNode) {startTs endTs : ℕ} {fault : Fault} :
    .error fault ∉ blockedScript g edge startTs endTs := by
  have hwait := blockedScript_cases hg hto startTs endTs
  generalize blockedScript g edge startTs endTs = script at hwait
  cases hwait <;> simp [sourceScript]

/-- The call that resolves a wait: on the thread of the waker, or on that of the
sender of a packet, up to the time at which it was sent. -/
theorem blockedScript_recurse (hg : g.Navigable) {edge : CriticalEdge} {toNode : CriticalNode}
    (hto : g.heap edge.toNode = some toNode) {startTs endTs source startTs' endTs' tid : ℕ}
    (hmem : .ok (.recurse source startTs' endTs' tid) ∈ blockedScript g edge startTs endTs) :
    startTs' = startTs ∧ g.label source = some (g.tsOf source, tid) ∧
      ((g.Wakes source edge.toNode ∧ endTs' = endTs) ∨
        ∃ w p node, g.Wakes w edge.toNode ∧ g.Precedes p w ∧ g.Wakes source p ∧
          g.heap p = some node ∧ endTs' = node.ts) := by
  have hwait := blockedScript_cases hg hto startTs endTs
  generalize blockedScript g edge startTs endTs = script at hwait hmem
  have hlabel : ∀ {n node}, g.heap n = some node → g.label n = some (g.tsOf n, node.tid) := by
    intro n node hnode
    rw [label_of_heap hnode, tsOf_of_heap hnode]
  cases hwait with
  | blocked => simp at hmem
  | source hw hnode =>
      simp only [sourceScript, List.mem_cons, Except.ok.injEq, reduceCtorEq,
        Action.recurse.injEq, List.not_mem_nil, or_false, false_or] at hmem
      obtain ⟨rfl, rfl, rfl, rfl⟩ := hmem
      exact ⟨rfl, hlabel hnode, .inl ⟨hw, rfl⟩⟩
  | network _ hw hp hq _ hstart hnode =>
      simp only [List.mem_cons, Except.ok.injEq, reduceCtorEq, Action.recurse.injEq,
        List.not_mem_nil, or_false] at hmem
      obtain ⟨rfl, rfl, rfl, rfl⟩ := hmem
      exact ⟨rfl, hlabel hnode, .inr ⟨_, _, _, hw, hp, hq, hstart, rfl⟩⟩

/-- What the last loop does, from `n` on. -/
inductive TraverseStep (g : CriticalGraph) (startTs endTs n : ℕ) : Except Fault Action → Prop
  | insert (segment : CriticalPathSegment) : TraverseStep g startTs endTs n (.ok (.insert segment))
  | wait {k id : ℕ} {edge : CriticalEdge} {toNode : CriticalNode} {x : Except Fault Action} :
      g.Walk n k → g.slot k .outHorizontal = some id → g.edges id = some edge →
      edge.type.isBlocked → g.tsOf k ≤ endTs → g.heap edge.toNode = some toNode →
      x ∈ blockedScript g edge (max startTs (g.tsOf k)) (min endTs (g.tsOf edge.toNode)) →
      TraverseStep g startTs endTs n x

theorem mem_traverseScript (hg : g.Navigable) {startTs endTs tid n : ℕ} {node : CriticalNode}
    (hnode : g.heap n = some node) {rounds : ℕ} (hrounds : g.nextNode ≤ n + rounds)
    (hx : x ∈ traverseScript g startTs endTs tid rounds (some n)) :
    TraverseStep g startTs endTs n x := by
  induction rounds generalizing n node with
  | zero => exact absurd (hg.lt_nextNode hnode) (not_lt.mpr hrounds)
  | succ rounds ih =>
      -- Behind the end of the window the loop adds no step.
      rcases Nat.lt_or_ge endTs node.ts with hpast | hle
      · rw [traverseScript_past (deref_of_heap hnode) hpast] at hx
        cases hx
      cases hout : node.edge .outHorizontal with
      | none =>
          rw [traverseScript_last (deref_of_heap hnode) hout] at hx
          cases hx
      | some id =>
          have hslot := (slot_of_heap hnode _).trans hout
          obtain ⟨edge, toNode, hedge, hto⟩ := hg.heap_to hslot
          rw [traverseScript_step (deref_of_heap hnode) hle hout hedge (deref_of_heap hto)] at hx
          rcases List.mem_append.mp hx with hx | hx
          · unfold edgeScript at hx
            split at hx
            · next hblocked =>
                refine .wait (.refl n) hslot hedge hblocked ?_ hto ?_
                · rwa [tsOf_of_heap hnode]
                · rwa [tsOf_of_heap hnode, tsOf_of_heap hto]
            · split at hx
              · obtain rfl := List.mem_singleton.mp hx
                exact .insert _
              · cases hx
          · have hfollow : g.Follow n edge.toNode := ⟨id, edge, hslot, hedge, rfl⟩
            have hlt := hg.forward hfollow
            cases ih hto (by omega) hx with
            | insert segment => exact .insert segment
            | wait hwalk hslot hedge' hblocked hts hto' hmem =>
                exact .wait (.head hfollow hwalk) hslot hedge' hblocked hts hto' hmem

/-- The call finds no node at the start of its window, and `h` is the first woken
node after it. -/
def LateHit (g : CriticalGraph) (call : Call) (h : ℕ) : Prop :=
  call.startTs < call.endTs ∧ g.getNodeIntersecting call.startTs call.tid = .ok none ∧
    ∃ id, findWakeUp g call.endTs g.rounds (g.getNodeStartingAfter call.startTs call.tid) =
      .ok (some (h, id))

/-- What one call does. -/
inductive CallStep (g : CriticalGraph) (call : Call) : Except Fault Action → Prop
  | lateStart {first : Option ℕ} {endTs : ℕ} (segment : CriticalPathSegment) :
      CallStep g call (.ok (.lateStart first segment endTs))
  /-- The thread starts late, and its first wake-up is resolved. -/
  | late {h w first : ℕ} {hit node : CriticalNode} : LateHit g call h → g.Wakes w h →
      first ∈ g.nodesOf call.tid → g.Walk first h →
      g.heap h = some hit → hit.ts ≤ call.endTs → g.heap w = some node →
      CallStep g call (.ok (.recurse w call.startTs hit.ts node.tid))
  | traverse {n : ℕ} {x : Except Fault Action} :
      g.getNodeIntersecting call.startTs call.tid = .ok (some n) → n ∈ g.nodesOf call.tid →
      TraverseStep g call.startTs call.endTs n x → CallStep g call x
  /-- The thread starts late, and is followed from its first node or wake-up on. -/
  | lateTraverse {first k : ℕ} {x : Except Fault Action} : first ∈ g.nodesOf call.tid →
      call.startTs < g.tsOf first → g.Walk first k →
      TraverseStep g call.startTs call.endTs k x → CallStep g call x

theorem le_rounds (g : CriticalGraph) (n : ℕ) : g.nextNode ≤ n + g.rounds := by
  simp only [CriticalGraph.rounds]
  omega

theorem findWakeUp_none (endTs rounds : ℕ) : findWakeUp g endTs rounds none = .ok none := by
  cases rounds <;> rfl

/-- What one call begins with. -/
inductive CallBegins (g : CriticalGraph) (startTs endTs tid : ℕ) : Prop
  | node {n : ℕ} {node : CriticalNode} : g.getNodeIntersecting startTs tid = .ok (some n) →
      n ∈ g.nodesOf tid → g.heap n = some node → g.tsOf n ≤ startTs →
      (∀ m, g.Follow n m → startTs ≤ g.tsOf m) → CallBegins g startTs endTs tid
  /-- The thread has no node at all in the window. -/
  | nothing : g.getNodeIntersecting startTs tid = .ok none →
      g.getNodeStartingAfter startTs tid = none → CallBegins g startTs endTs tid
  /-- The thread starts late and is not woken up. -/
  | missed {first : ℕ} {node : CriticalNode} : g.getNodeIntersecting startTs tid = .ok none →
      g.getNodeStartingAfter startTs tid = some first → first ∈ g.nodesOf tid →
      g.heap first = some node → startTs < g.tsOf first →
      findWakeUp g endTs g.rounds (some first) = .ok none → CallBegins g startTs endTs tid
  /-- The thread starts late, and its first wake-up is found. -/
  | woken {first h id : ℕ} {hit source : CriticalNode} {wakeUp : CriticalEdge} :
      g.getNodeIntersecting startTs tid = .ok none →
      g.getNodeStartingAfter startTs tid = some first → first ∈ g.nodesOf tid →
      startTs < g.tsOf first → findWakeUp g endTs g.rounds (some first) = .ok (some (h, id)) →
      g.Walk first h → g.heap h = some hit → g.tsOf h ≤ endTs →
      g.slot h .inVertical = some id → g.edges id = some wakeUp →
      g.heap wakeUp.fromNode = some source → CallBegins g startTs endTs tid

theorem callBegins (hg : g.Navigable) (startTs endTs tid : ℕ) :
    CallBegins g startTs endTs tid := by
  rcases getNodeIntersecting_cases hg startTs tid with hnone | ⟨n, hsome, hmem, hle, hafter⟩
  · cases hfirst : g.getNodeStartingAfter startTs tid with
    | none => exact .nothing hnone hfirst
    | some first =>
        obtain ⟨hmem, hlt⟩ := getNodeStartingAfter_mem hfirst
        obtain ⟨node, hnode, -, -⟩ := hg.heap_of_mem hmem
        rcases findWakeUp_cases hg endTs hnode (le_rounds g first) with
          hfind | ⟨h, id, hit, hfind, hwalk, hhit, hle, hslot⟩
        · exact .missed hnone hfirst hmem hnode hlt hfind
        · obtain ⟨wakeUp, source, hwakeUp, hsource⟩ := hg.heap_from hslot
          exact .woken hnone hfirst hmem hlt hfind hwalk hhit hle hslot hwakeUp hsource
  · obtain ⟨node, hnode, -, -⟩ := hg.heap_of_mem hmem
    exact .node hsome hmem hnode hle hafter

theorem mem_callScript (hg : g.Navigable) {call : Call} (hx : x ∈ call.script g) :
    CallStep g call x := by
  rw [Call.script] at hx
  rcases Nat.lt_or_ge call.startTs call.endTs with hlt | hempty
  swap
  · rw [callScript, if_pos hempty] at hx
    cases hx
  cases callBegins hg call.startTs call.endTs call.tid with
  | node hsome hmem hnode =>
      rw [callScript_of_node hlt hsome] at hx
      exact .traverse hsome hmem (mem_traverseScript hg hnode (le_rounds g _) hx)
  | nothing hnone hfirst =>
      rw [callScript_of_missed hlt hnone hfirst (findWakeUp_none _ _), traverseScript_none] at hx
      obtain rfl := List.mem_singleton.mp hx
      exact .lateStart _
  | @missed first node hnone hfirst hmem hnode hafter hfind =>
      rw [callScript_of_missed hlt hnone hfirst hfind] at hx
      rcases List.mem_cons.mp hx with rfl | hx
      · exact .lateStart _
      · exact .lateTraverse hmem hafter (.refl first)
          (mem_traverseScript hg hnode (le_rounds g _) hx)
  | @woken first h id hit source wakeUp hnone hfirst hmem hafter hfind hwalk hhit hle hslot
      hwakeUp hsource =>
      rw [callScript_of_woken hlt hnone hfirst hfind (deref_of_heap hhit) hwakeUp
        (deref_of_heap hsource)] at hx
      rcases List.mem_cons.mp hx with rfl | hx
      · refine .late ⟨hlt, hnone, id, by rw [hfirst, hfind]⟩
          ⟨id, wakeUp, hslot, hwakeUp, rfl⟩ hmem hwalk hhit ?_ hsource
        rwa [← tsOf_of_heap hhit]
      · exact .lateTraverse hmem hafter hwalk (mem_traverseScript hg hhit (le_rounds g _) hx)

/-- A call has no fault of its own. -/
theorem callScript_fault (hg : g.Navigable) (call : Call) {fault : Fault} :
    .error fault ∉ call.script g := by
  intro hx
  have htraverse : ∀ {n}, ¬ TraverseStep g call.startTs call.endTs n (.error fault) := by
    intro n hstep
    cases hstep with
    | wait _ _ _ _ _ hto hmem => exact blockedScript_fault hg hto hmem
  cases mem_callScript hg hx with
  | traverse _ _ hstep => exact htraverse hstep
  | lateTraverse _ _ _ hstep => exact htraverse hstep

/-- The only thing that can go wrong in a search is that it recurses forever. -/
theorem computeCriticalPath_fault (hg : g.Navigable) {fuel startTs endTs tid : ℕ} {fault : Fault}
    (h : computeCriticalPath g fuel startTs endTs tid = .error fault) : fault = .outOfFuel :=
  reaches_fault ⟨startTs, endTs, tid⟩
    (fun call _ _ hx => absurd hx (callScript_fault hg call)) fuel .self h

end TibeeCompare.Critical
