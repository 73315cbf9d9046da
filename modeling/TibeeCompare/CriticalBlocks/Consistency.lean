import TibeeCompare.CriticalBlocks.BlockRuns
import TibeeCompare.Critical.CallSteps

/-!
The slots of the nodes and the stored edges, in runs with cleanups.

Every handler links a new node to the last one of its thread, whose outgoing slot
is free, with one exception: a wake-up through the network extends the network
thread from the node of the packet, however often its interrupt wakes somebody
up. The second wake-up overwrites the slot and leaves an edge behind that no slot
of its source holds. As long as this does not happen, graph and slots agree, and
neither the handlers nor the sweeps meet a missing edge or a freed node.
-/

namespace TibeeCompare.Critical.CriticalGraph

open Function

/-- The last node of a thread has no outgoing horizontal edge yet. -/
def LastFree (g : CriticalGraph) : Prop :=
  ∀ tid last, g.getLastNodeForThread tid = some last → g.slot last .outHorizontal = none

theorem lastFree_empty : empty.LastFree := by
  intro tid last hlast
  cases hlast

theorem getLastNodeForThread_createNode (g : CriticalGraph) (tid t : ℕ) :
    (g.createNode tid).1.getLastNodeForThread t =
      if t = tid then some g.nextNode else g.getLastNodeForThread t := by
  unfold getLastNodeForThread
  rw [nodesOf_createNode]
  by_cases ht : t = tid
  · subst ht
    simp
  · simp [ht]

theorem LastFree.createNode {g : CriticalGraph} (h : g.LastFree) (tid : ℕ) :
    (g.createNode tid).1.LastFree := by
  intro t last hlast
  rw [getLastNodeForThread_createNode] at hlast
  rw [slot_createNode]
  split at hlast
  · obtain rfl := Option.some.inj hlast
    rw [if_pos rfl]
  · split
    · rfl
    · exact h t last hlast

/-- Extending a thread from one of its own nodes. -/
theorem LastFree.extend {g : CriticalGraph} (h : g.LastFree) (ho : g.Owned) {prev ts tid : ℕ}
    (hprev : g.label prev = some (ts, tid)) (type : CriticalEdgeType) :
    (g.extend type prev tid).LastFree := by
  intro t last hlast
  have hlast' : (g.createNode tid).1.getLastNodeForThread t = some last := hlast
  rw [getLastNodeForThread_createNode] at hlast'
  rw [slot_extend type tid ho hprev]
  split at hlast'
  · obtain rfl := Option.some.inj hlast'
    simp [(ho.lt_next hprev).ne']
  · next ht =>
      -- The last node of another thread is not the one that is linked.
      have hlabel := label_of_getLastNodeForThread ho hlast'
      have hne : last ≠ prev := by
        rintro rfl
        rw [hprev] at hlabel
        exact ht (Prod.mk.inj (Option.some.inj hlabel)).2.symm
      simp [hne, (ho.lt_next hlabel).ne, h t last hlast']

/-- What `SlotsExact` and `LastFree` need of a node that a packet was received on. -/
def OutFree (g : CriticalGraph) (n : ℕ) : Prop := g.slot n .outHorizontal = none

theorem SlotsExact.extend {g : CriticalGraph} (h : SlotsExact noStale g) (ho : g.Owned)
    {prev : ℕ} {label : ℕ × ℕ} (hprev : g.label prev = some label) (hfree : g.OutFree prev)
    (type : CriticalEdgeType) (tid : ℕ) : SlotsExact noStale (g.extend type prev tid) := by
  have hne := (ho.lt_next hprev).ne
  refine (h.createNode ho tid).withEdge ⟨type, prev, g.nextNode⟩ (.inr rfl)
    (?_ : _ = some label) (?_ : _ = some (g.ts, tid)) ?_ ?_
  · rw [label_createNode, update_of_ne hne, hprev]
  · rw [label_createNode, update_self]
  · rw [slot_createNode, if_neg hne, hfree]
  · rw [slot_createNode, if_pos rfl]

theorem Grows.exact {g g' : CriticalGraph} (h : Grows OutFree g g') (ho : g.Owned)
    (hexact : SlotsExact noStale g) (hfree : g.LastFree) :
    SlotsExact noStale g' ∧ g'.LastFree := by
  induction h with
  | refl => exact ⟨hexact, hfree⟩
  | node tid hg ih => exact ⟨ih.1.createNode (hg.owned ho) tid, ih.2.createNode tid⟩
  | @cut g type prev tid hg hlast ih =>
      have ho' := hg.owned ho
      have hprev := label_of_getLastNodeForThread ho' hlast
      exact ⟨ih.1.extend ho' hprev (ih.2 tid prev hlast) type tid, ih.2.extend ho' hprev type⟩
  | hop hg hprev hfree ih =>
      have ho' := hg.owned ho
      exact ⟨ih.1.extend ho' hprev hfree .run kNetworkThread, ih.2.extend ho' hprev .run⟩
  | @wakeUp g n m t t' hg hlt hn hm hout hin ih =>
      refine ⟨ih.1.withEdge ⟨.vertical, n, m⟩ (.inl rfl) hn hm hout hin, ?_⟩
      intro tid last hlast
      rw [slot_withEdge _ hn hm]
      simpa [CriticalEdgePosition.opposite] using ih.2 tid last hlast

theorem LastFree.of_below {g g' : CriticalGraph} (h : g.LastFree) (hbelow : Below g' g) :
    g'.LastFree := by
  intro tid last hlast
  obtain ⟨pre, hpre⟩ := hbelow.nodesOf (t := tid)
  have hlast' : g.getLastNodeForThread tid = some last := by
    unfold getLastNodeForThread at hlast ⊢
    rw [← hpre, List.getLast?_append, hlast]
    rfl
  cases hslot : g'.slot last .outHorizontal with
  | none => rfl
  | some e =>
      have hold := h tid last hlast'
      rw [hbelow.slot hslot] at hold
      cases hold

end TibeeCompare.Critical.CriticalGraph

namespace TibeeCompare.CriticalBlocks

open Critical Critical.CriticalGraph CriticalBlock

/-- A wake-up through the network finds the node of the packet in the graph, and
the network thread not yet extended from there. -/
def NoReuse (b : CriticalBlock) : Step → Prop
  | .event _ event => ∀ node ∈ b.networkNode event,
      (b.graph.label node).isSome ∧ b.graph.slot node .outHorizontal = none
  | .cleanup .. => True

instance (b : CriticalBlock) : DecidablePred (NoReuse b)
  | .event _ event => inferInstanceAs (Decidable (∀ node ∈ b.networkNode event,
      (b.graph.label node).isSome ∧ b.graph.slot node .outHorizontal = none))
  | .cleanup .. => isTrue trivial

theorem Reachable.exact {kInvalidThread : ℕ} {b : CriticalBlock}
    (h : Reachable kInvalidThread NoReuse b) :
    SlotsExact noStale b.graph ∧ b.graph.LastFree := by
  induction h with
  | initial => exact ⟨slotsExact_empty, lastFree_empty⟩
  | @step b b' s hb _ hallowed hstep ih =>
      obtain ⟨ho, hp, -, -⟩ := hb.known
      have hhop : ∀ ts event node, s = .event ts event → b.networkNode event = some node →
          OutFree (b.graph.setTimestamp ts) node := by
        rintro ts event node rfl hnode
        exact (hallowed node hnode).2
      rcases step_cases _ ho hp hhop hstep with
        ⟨ts, event, rfl, heffect⟩ | ⟨ts, order, g, rfl, hclean, rfl⟩
      · exact heffect.grows.exact (ho.setTimestamp ts)
          ⟨⟨ih.1.stored, ih.1.sameAxis, ih.1.fresh⟩, ih.1.held⟩ ih.2
      · obtain ⟨g', hclean', -, hexact⟩ := ih.1.cleanup_total ho ts order
        rw [hclean] at hclean'
        obtain rfl := Except.ok.inj hclean'
        exact ⟨hexact, ih.2.of_below (below_cleanup ho hclean)⟩

theorem step_total_of_noReuse {kInvalidThread : ℕ} {b : CriticalBlock}
    (h : Reachable kInvalidThread NoReuse b) {s : Step} (hallowed : NoReuse b s) :
    ∃ b', b.step kInvalidThread s = .ok b' := by
  obtain ⟨ho, hp, -, -⟩ := h.known
  cases s with
  | cleanup ts order =>
      obtain ⟨g, hclean, -⟩ := h.exact.1.cleanup_total ho ts order
      exact ⟨{ b with graph := g }, Runs.bind_eq_ok.mpr ⟨g, hclean, rfl⟩⟩
  | event ts event =>
      have hnetwork : ∀ node, (b.setTimestamp ts).networkNode event = some node →
          (∃ ts', (b.setTimestamp ts).graph.label node = some (ts', kNetworkThread)) ∧ True := by
        intro node hnode
        have hnode' : b.networkNode event = some node := hnode
        obtain ⟨⟨ts', tid⟩, hlabel⟩ := Option.isSome_iff_exists.mp (hallowed node hnode').1
        obtain rfl := (hp node (refers_networkNode hnode')).2 ts' tid hlabel
        exact ⟨⟨ts', hlabel⟩, trivial⟩
      obtain ⟨b', hstep, -⟩ := onEvent_effect (fun _ _ => True)
        (show (b.setTimestamp ts).graph.Owned from ho.setTimestamp ts) kInvalidThread hnetwork
      exact ⟨b', hstep⟩

/-- In a run without reuse, slots and edges agree in every state. Every further
step without reuse goes through, and no path search meets a missing edge. -/
theorem consistent_of_noReuse {kInvalidThread : ℕ} {b : CriticalBlock}
    (h : Reachable kInvalidThread NoReuse b) :
    b.graph.Consistent ∧
      (∀ s : Step, s.InOrder b → NoReuse b s → ∃ b', b.step kInvalidThread s = .ok b') ∧
        ∀ fuel startTs endTs tid,
          computeCriticalPath b.graph fuel startTs endTs tid ≠ .error .invalidEdge := by
  refine ⟨h.exact.1.consistent, fun s _ hallowed => step_total_of_noReuse h hallowed, ?_⟩
  intro fuel startTs endTs tid hfault
  cases computeCriticalPath_fault (h.exact.1.navigable h.known.owned h.known.forward) hfault

/-- A packet is received by thread 2, and is followed by a cleanup that removes
the nodes before the wake-up. -/
def packetThenCleanup : List Step :=
  [.event 1 (.threadStatus 1 (some .runUsermode)),
    .event 1 (.threadStatus 2 (some .waitBlocked)),
    .event 2 (.inetSockLocalOut 0 1 ⟨1, 0, 0⟩),
    .event 3 (.softIrqEntry 1 3),
    .event 3 (.inetSockLocalIn 1 ⟨1, 0, 0⟩),
    .event 4 (.ttwu 1 0 2),
    .cleanup 3 [1, 2, kNetworkThread]]

theorem consistent_packetThenCleanup :
    let b := CriticalBlock.after 4294967295 packetThenCleanup
    b.graph.label 0 = none ∧ b.graph.Consistent ∧
      (∀ s : Step, s.InOrder b → NoReuse b s → ∃ b', b.step 4294967295 s = .ok b') ∧
        ∀ fuel startTs endTs tid,
          computeCriticalPath b.graph fuel startTs endTs tid ≠ .error .invalidEdge := by
  have hfollows : Follows 4294967295 NoReuse .initial packetThenCleanup := by decide
  exact ⟨by decide, consistent_of_noReuse hfollows.reachable_after⟩

/-- The interrupt that receives the packet wakes up two threads. -/
def twoWakeUps : List Step :=
  [.event 1 (.threadStatus 1 (some .runUsermode)),
    .event 1 (.threadStatus 2 (some .waitBlocked)),
    .event 1 (.threadStatus 3 (some .waitBlocked)),
    .event 2 (.inetSockLocalOut 0 1 ⟨1, 0, 0⟩),
    .event 3 (.softIrqEntry 1 3),
    .event 3 (.inetSockLocalIn 1 ⟨1, 0, 0⟩),
    .event 4 (.ttwu 1 0 2),
    .event 4 (.ttwu 1 0 3)]

/-- Node 4 is the packet, edge 2 leads from it to the first wake-up and edge 5 to
the second one. -/
theorem not_consistent_twoWakeUps :
    Reachable 4294967295 (fun _ _ => True) (.after 4294967295 twoWakeUps) ∧
      ¬ (CriticalBlock.after 4294967295 twoWakeUps).graph.Consistent := by
  have hfollows : Follows 4294967295 (fun _ _ => True) .initial twoWakeUps := by decide
  refine ⟨hfollows.reachable_after, ?_⟩
  intro hconsistent
  have hedge : (CriticalBlock.after 4294967295 twoWakeUps).graph.edges 2 = some ⟨.run, 4, 5⟩ := by
    decide
  obtain ⟨out, rfl | rfl, hslot, -⟩ := hconsistent.held hedge
  · have hvertical : (CriticalBlock.after 4294967295 twoWakeUps).graph.slot 4 .outVertical =
        none := by decide
    rw [hvertical] at hslot
    cases hslot
  · have hhorizontal : (CriticalBlock.after 4294967295 twoWakeUps).graph.slot 4 .outHorizontal =
        some 5 := by decide
    rw [hhorizontal] at hslot
    cases hslot

end TibeeCompare.CriticalBlocks
