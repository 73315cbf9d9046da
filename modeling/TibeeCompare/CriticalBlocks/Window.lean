import TibeeCompare.CriticalBlocks.Traces

/-!
Where the segments of a path lie.

Two of the places that produce segments do not clip them to the window of their
call: the hop over the network takes both its bounds from the nodes of the
packet, and a thread that starts late waits until its first node. When no call of
a search goes beyond its window there, the path stays in the queried window and
does not overlap itself.
-/

namespace TibeeCompare.Critical

open Intervals CriticalGraph

/-- A packet is sent and received within the wait that it ends, and a thread that
starts late has its first node within the window. -/
def Action.StaysInside (g : CriticalGraph) : Action → Prop
  | .network startNode endNode _ startTs endTs =>
      startTs ≤ g.tsOf startNode ∧ g.tsOf endNode ≤ endTs
  | .lateStart first _ endTs => ∀ n ∈ first, g.tsOf n ≤ endTs
  | .insert _ | .recurse .. => True

instance (g : CriticalGraph) : DecidablePred (Action.StaysInside g)
  | .network startNode endNode _ startTs endTs =>
      inferInstanceAs (Decidable (startTs ≤ g.tsOf startNode ∧ g.tsOf endNode ≤ endTs))
  | .lateStart first _ endTs => inferInstanceAs (Decidable (∀ n ∈ first, g.tsOf n ≤ endTs))
  | .insert _ => isTrue trivial
  | .recurse .. => isTrue trivial

/-- No step of the script goes beyond its window. -/
abbrev Script.StaysInside (g : CriticalGraph) (script : Script) : Prop :=
  script.All (Action.StaysInside g)

variable {g : CriticalGraph}

theorem blockedScript_ordered (hg : g.Traced) {edge : CriticalEdge} {toNode : CriticalNode}
    (hto : g.heap edge.toNode = some toNode) {startTs endTs : ℕ} (hle : startTs ≤ endTs)
    (hinside : (blockedScript g edge startTs endTs).StaysInside g) :
    (blockedScript g edge startTs endTs).Ordered startTs endTs := by
  have hwait := blockedScript_cases hg.navigable hto startTs endTs
  generalize blockedScript g edge startTs endTs = script at hwait hinside
  cases hwait with
  | blocked => exact ⟨le_refl _, hle, le_refl _⟩
  | source => exact ⟨le_refl _, le_refl _, le_refl _, hle, le_refl _⟩
  | @network w p q endNode startNode node type hw hp hq hend hstart hnode =>
      obtain ⟨hsend, hreceive⟩ := hinside _ (List.mem_cons_of_mem _ List.mem_cons_self)
      have hpacket := (hg.precedes hp).2
      rw [tsOf_of_heap hstart] at hsend hpacket
      rw [tsOf_of_heap hend] at hreceive hpacket
      exact ⟨le_refl _, hsend, le_refl _, hpacket, hreceive⟩

/-- One round of the last loop keeps to the part of the window between its nodes. -/
theorem edgeScript_ordered (hg : g.Traced) {edge : CriticalEdge} {toNode : CriticalNode}
    {lo hi tid : ℕ} (hto : g.heap edge.toNode = some toNode) (hle : lo ≤ hi)
    (hinside : (edgeScript g edge lo hi tid).StaysInside g) :
    (edgeScript g edge lo hi tid).Ordered lo hi := by
  unfold edgeScript at hinside ⊢
  split
  · next hblocked =>
      rw [if_pos hblocked] at hinside
      exact blockedScript_ordered hg hto hle hinside
  · split
    · exact ⟨le_refl _, hle, le_refl _⟩
    · exact hle

/-- The last loop, from a node on whose successors lie after the start. -/
theorem traverseScript_ordered (hg : g.Traced) {startTs endTs tid n : ℕ} {node : CriticalNode}
    (hnode : g.heap n = some node) (hle : startTs ≤ endTs)
    (hafter : ∀ m, g.Follow n m → startTs ≤ g.tsOf m) {rounds : ℕ}
    (hinside : (traverseScript g startTs endTs tid rounds (some n)).StaysInside g) :
    (traverseScript g startTs endTs tid rounds (some n)).Ordered
      (min endTs (max startTs (g.tsOf n))) endTs := by
  induction rounds generalizing n node with
  | zero => trivial
  | succ rounds ih =>
      have hnil : Script.Ordered (min endTs (max startTs (g.tsOf n))) [] endTs :=
        min_le_left _ _
      have hts := tsOf_of_heap hnode
      rcases Nat.lt_or_ge endTs node.ts with hpast | hend
      · rwa [traverseScript_past (deref_of_heap hnode) hpast]
      cases hout : node.edge .outHorizontal with
      | none => rwa [traverseScript_last (deref_of_heap hnode) hout]
      | some id =>
          have hslot := (slot_of_heap hnode _).trans hout
          obtain ⟨edge, toNode, hedge, hto⟩ := hg.navigable.heap_to hslot
          have hfollow : g.Follow n edge.toNode := ⟨id, edge, hslot, hedge, rfl⟩
          have htoTs := tsOf_of_heap hto
          have hnext := hafter edge.toNode hfollow
          obtain ⟨t, -, -, -, hforward⟩ := hg.follow hfollow
          rw [traverseScript_step (deref_of_heap hnode) hend hout hedge (deref_of_heap hto)]
            at hinside ⊢
          obtain ⟨hfirst, hrest⟩ := Script.all_append.mp hinside
          have hedgeScript := edgeScript_ordered hg hto
            (show max startTs node.ts ≤ min endTs toNode.ts by omega) hfirst
          have htail := ih hto (fun m hm => by
            obtain ⟨t, -, -, -, hm'⟩ := hg.follow hm
            exact hnext.trans hm') hrest
          have hlo : min endTs (max startTs (g.tsOf n)) = max startTs node.ts := by omega
          have hmid : min endTs (max startTs (g.tsOf edge.toNode)) = min endTs toNode.ts := by
            omega
          rw [hmid] at htail
          rw [hlo]
          exact hedgeScript.append htail

/-- One call whose steps stay inside of its window. -/
theorem callScript_ordered (hg : g.Traced) {call : Call} (hle : call.startTs ≤ call.endTs)
    (hinside : (call.script g).StaysInside g) :
    (call.script g).Ordered call.startTs call.endTs := by
  obtain ⟨startTs, endTs, tid⟩ := call
  unfold Call.script at hinside ⊢
  dsimp only at hle hinside ⊢
  -- an empty window gives no steps
  rcases Nat.eq_or_lt_of_le hle with rfl | hlt
  · rw [callScript, if_pos le_rfl]
    exact le_rfl
  have hnav := hg.navigable
  have hfollow : ∀ {n m}, g.Follow n m → g.tsOf n ≤ g.tsOf m := by
    intro n m hm
    obtain ⟨t, -, -, -, hle⟩ := hg.follow hm
    exact hle
  cases callBegins hnav startTs endTs tid with
  | @node n node hsome hmem hnode hn hafter =>
      rw [callScript_of_node hlt hsome] at hinside ⊢
      have hordered := traverseScript_ordered hg hnode hle hafter hinside
      have hlo : min endTs (max startTs (g.tsOf n)) = startTs := by omega
      rwa [hlo] at hordered
  | nothing hnone hfirst =>
      rw [callScript_of_missed hlt hnone hfirst (findWakeUp_none _ _), traverseScript_none]
      exact ⟨le_refl _, hle, le_refl _⟩
  | @missed first node hnone hfirst hmem hnode hafter hfind =>
      rw [callScript_of_missed hlt hnone hfirst hfind] at hinside ⊢
      have hend : g.tsOf first ≤ endTs := hinside _ List.mem_cons_self first rfl
      have htail := traverseScript_ordered hg hnode hle
        (fun m hm => hafter.le.trans (hfollow hm))
        (fun action hmem => hinside action (List.mem_cons_of_mem _ hmem))
      have hlo : min endTs (max startTs (g.tsOf first)) = g.tsOf first := by omega
      rw [hlo] at htail
      exact ⟨le_refl _, hafter.le, htail⟩
  -- The walk to the woken node does not go back, and so the steps begin behind the start.
  | @woken first h id hit source wakeUp hnone hfirst hmem hafter hfind hwalk hhit hend hslot
      hwakeUp hsource =>
      rw [callScript_of_woken hlt hnone hfirst hfind (deref_of_heap hhit) hwakeUp
        (deref_of_heap hsource)] at hinside ⊢
      have hhitAfter : startTs < g.tsOf h :=
        hwalk.induction (P := fun k => startTs < g.tsOf k)
          (fun _ _ hn hm => hn.trans_le (hfollow hm)) hafter
      have htail := traverseScript_ordered hg hhit hle
        (fun m hm => hhitAfter.le.trans (hfollow hm))
        (fun action hmem => hinside action (List.mem_cons_of_mem _ hmem))
      have hhitTs := tsOf_of_heap hhit
      have hlo : min endTs (max startTs (g.tsOf h)) = hit.ts := by omega
      rw [hlo] at htail
      exact ⟨le_refl _, show startTs ≤ hit.ts by omega, htail⟩

end TibeeCompare.Critical

namespace TibeeCompare.CriticalBlocks

open Critical Intervals

/-- The segments lie in the window, and none starts before the one before it ends. -/
def InWindow (startTs endTs : ℕ) (path : CriticalPath) : Prop :=
  (∀ segment ∈ path, startTs ≤ segment.startTs ∧ segment.startTs ≤ segment.endTs ∧
    segment.endTs ≤ endTs) ∧
  path.Pairwise fun first second => first.endTs ≤ second.startTs

/-- When no call of a search goes beyond its window, the path that it ends with
lies in the queried window. -/
theorem inWindow_of_staysInside {kInvalidThread : ℕ} {b : CriticalBlock}
    (hb : Reachable kInvalidThread OnlyEvents b) {startTs endTs tid : ℕ} (hle : startTs ≤ endTs)
    (hinside : ∀ call, Reaches b.graph ⟨startTs, endTs, tid⟩ call →
      (call.script b.graph).StaysInside b.graph)
    {fuel : ℕ} (hends : computeCriticalPath b.graph fuel startTs endTs tid ≠ .error .outOfFuel) :
    ∃ path, computeCriticalPath b.graph fuel startTs endTs tid = .ok path ∧
      InWindow startTs endTs path := by
  have hg := hb.traced
  cases hrun : computeCriticalPath b.graph fuel startTs endTs tid with
  | error fault =>
      rw [computeCriticalPath_fault hg.navigable hrun] at hrun
      exact absurd hrun hends
  | ok path =>
      have hself : Reaches b.graph ⟨startTs, endTs, tid⟩ ⟨startTs, endTs, tid⟩ := .self
      have hkeeps := reaches_induction ExtendsOrder (by
        intro call hcall recurse hrec path path' hscript lo hle hpath
        exact Script.run_extendsOrder hrec (callScript_ordered hg hle (hinside call hcall)) hpath
          hscript) fuel hself hrun
      have hordered : PathOrdered startTs path endTs := hkeeps startTs hle (le_refl startTs)
      exact ⟨path, rfl, fun segment hmem => hordered.bounds hmem, hordered.pairwise⟩

/-- Thread 2 sends a packet to thread 1 at 5, which receives it at 10. -/
def packetBetweenThreads : List Step :=
  [.event 2 (.threadStatus 1 (some .waitBlocked)),
    .event 2 (.threadStatus 2 (some .runUsermode)),
    .event 5 (.inetSockLocalOut 0 2 ⟨1, 0, 0⟩),
    .event 10 (.softIrqEntry 1 3),
    .event 10 (.inetSockLocalIn 1 ⟨1, 0, 0⟩),
    .event 10 (.ttwu 1 0 1)]

theorem follows_packetBetweenThreads :
    Follows 4294967295 OnlyEvents .initial packetBetweenThreads := by decide

/-- The window starts before the packet is sent and ends when it is received. -/
theorem inWindow_packetBetweenThreads :
    ∃ path, computeCriticalPath (CriticalBlock.after 4294967295 packetBetweenThreads).graph 2
        3 10 1 = .ok path ∧ InWindow 3 10 path := by
  refine inWindow_of_staysInside follows_packetBetweenThreads.reachable_after (by decide) ?_ ?_
  · intro call hcall
    have hmem := reaches_mem [⟨3, 10, 1⟩, ⟨3, 5, 2⟩] (by decide) (by decide) hcall
    have hinside : ∀ call ∈ [(⟨3, 10, 1⟩ : Call), ⟨3, 5, 2⟩], (call.script
        (CriticalBlock.after 4294967295 packetBetweenThreads).graph).StaysInside
          (CriticalBlock.after 4294967295 packetBetweenThreads).graph := by
      decide
    exact hinside call hmem
  · have hquery : callScript (CriticalBlock.after 4294967295 packetBetweenThreads).graph 3 10 1 =
        [.ok (.recurse 2 3 5 2),
          .ok (.network 3 4 ⟨5, 10, kNetworkThread, .run⟩ 3 10)] := by decide
    have hsender : callScript (CriticalBlock.after 4294967295 packetBetweenThreads).graph 3 5 2 =
        [.ok (.insert ⟨3, 5, 2, .run⟩)] := by decide
    rw [computeCriticalPath, computeCriticalPathRecursive_of_script hquery]
    simp only [Script.run_ok_cons, Action.perform,
      computeCriticalPathRecursive_of_script hsender]
    rintro ⟨⟩

/-- When the window starts while the packet is on its way, the path starts when it
was sent. When the window ends before the thread starts, the path ends with the
first node of the thread. -/
theorem not_inWindow_packetBetweenThreads :
    Reachable 4294967295 OnlyEvents (.after 4294967295 packetBetweenThreads) ∧
      (computeCriticalPath (CriticalBlock.after 4294967295 packetBetweenThreads).graph 2 7 10 1 =
          .ok [⟨5, 10, kNetworkThread, .run⟩] ∧
        ¬ InWindow 7 10 [⟨5, 10, kNetworkThread, .run⟩]) ∧
      computeCriticalPath (CriticalBlock.after 4294967295 packetBetweenThreads).graph 1 0 1 1 =
          .ok [⟨0, 2, 1, .waitBlocked⟩] ∧
        ¬ InWindow 0 1 [⟨0, 2, 1, .waitBlocked⟩] := by
  refine ⟨follows_packetBetweenThreads.reachable_after, ⟨?_, ?_⟩, ?_, ?_⟩
  · have hquery : callScript (CriticalBlock.after 4294967295 packetBetweenThreads).graph 7 10 1 =
        [.ok (.recurse 2 7 5 2),
          .ok (.network 3 4 ⟨5, 10, kNetworkThread, .run⟩ 7 10)] := by decide
    have hsender : callScript (CriticalBlock.after 4294967295 packetBetweenThreads).graph 7 5 2 =
        [] := by decide
    rw [computeCriticalPath, computeCriticalPathRecursive_of_script hquery]
    simp only [Script.run_ok_cons, Action.perform,
      computeCriticalPathRecursive_of_script hsender]
    rfl
  · intro hinside
    have hstart := (hinside.1 _ List.mem_cons_self).1
    exact absurd hstart (by decide)
  · have hquery : callScript (CriticalBlock.after 4294967295 packetBetweenThreads).graph 0 1 1 =
        [.ok (.lateStart (some 0) ⟨0, 2, 1, .waitBlocked⟩ 1)] := by decide
    rw [computeCriticalPath, computeCriticalPathRecursive_of_script hquery]
    rfl
  · intro hinside
    have hend := (hinside.1 _ List.mem_cons_self).2.2
    exact absurd hend (by decide)

end TibeeCompare.CriticalBlocks
