import TibeeCompare.CriticalBlocks.Links

/-!
The chains of nodes that runs of the block build, cleanups included.

A node is put behind another one without an edge in one case only: the thread has no last
edge type. As long as a thread has nodes, it loses its type when it exits and in no other way,
and the notification of the exit created its last node. A cleanup may take nodes away, but
neither a type nor an edge between two nodes that stay.
-/

namespace TibeeCompare.CriticalBlocks

open Critical Critical.CriticalGraph Function Runs

/-! ### Nodes of exits -/

/-- The nodes that a step adds to a thread because of a null status. -/
def Step.exitNodes (b b' : CriticalBlock) : Step → List ℕ
  | .event _ (.threadStatus tid none) =>
      (b'.graph.nodesOf tid).filter fun n => n ∉ b.graph.nodesOf tid
  | .event _ (.threadStatus _ (some _)) | .event _ (.ttwu ..) | .event _ (.softIrqEntry ..)
  | .event _ (.softIrqExit ..) | .event _ (.irqHandlerEntry ..) | .event _ (.irqHandlerExit ..)
  | .event _ (.hrtimerExpireEntry ..) | .event _ (.hrtimerExpireExit ..)
  | .event _ (.inetSockLocalIn ..) | .event _ (.inetSockLocalOut ..) | .event _ (.threadName ..)
  | .cleanup .. => []

/-- The states that runs lead to, with the nodes that were created by null statuses. -/
inductive RunsTo (kInvalidThread : ℕ) : CriticalBlock → List ℕ → Prop
  | initial : RunsTo kInvalidThread .initial []
  | step {b b' : CriticalBlock} {ended : List ℕ} {s : Step} : RunsTo kInvalidThread b ended →
      s.InOrder b → b.step kInvalidThread s = .ok b' →
      RunsTo kInvalidThread b' (ended ++ s.exitNodes b b')

theorem RunsTo.reachable {kInvalidThread : ℕ} {b : CriticalBlock} {ended : List ℕ}
    (h : RunsTo kInvalidThread b ended) : Reachable kInvalidThread (fun _ _ => True) b := by
  induction h with
  | initial => exact .initial
  | step _ horder hstep ih => exact ih.step horder trivial hstep

def exitNodesOfRun (kInvalidThread : ℕ) : CriticalBlock → List Step → List ℕ
  | _, [] => []
  | b, s :: steps =>
      match b.step kInvalidThread s with
      | .ok b' => s.exitNodes b b' ++ exitNodesOfRun kInvalidThread b' steps
      | .error _ => []

theorem RunsTo.follow {kInvalidThread : ℕ} {Allowed : CriticalBlock → Step → Prop}
    {b : CriticalBlock} {ended : List ℕ} {steps : List Step} (hb : RunsTo kInvalidThread b ended)
    (h : Follows kInvalidThread Allowed b steps) :
    ∃ b', b.run kInvalidThread steps = .ok b' ∧
      RunsTo kInvalidThread b' (ended ++ exitNodesOfRun kInvalidThread b steps) := by
  induction steps generalizing b ended with
  | nil => exact ⟨b, rfl, by rwa [exitNodesOfRun, List.append_nil]⟩
  | cons s steps ih =>
      obtain ⟨horder, -, hrest⟩ := h
      cases hstep : b.step kInvalidThread s with
      | error fault =>
          rw [hstep] at hrest
          exact hrest.elim
      | ok b' =>
          rw [hstep] at hrest
          obtain ⟨b'', hrun, hb''⟩ := ih (hb.step horder hstep) hrest
          refine ⟨b'', run_cons_eq_ok.mpr ⟨b', hstep, hrun⟩, ?_⟩
          rwa [exitNodesOfRun, hstep, ← List.append_assoc]

theorem Follows.runsTo_after {kInvalidThread : ℕ} {Allowed : CriticalBlock → Step → Prop}
    {steps : List Step} (h : Follows kInvalidThread Allowed .initial steps) :
    RunsTo kInvalidThread (.after kInvalidThread steps)
      (exitNodesOfRun kInvalidThread .initial steps) := by
  obtain ⟨b, hrun, hb⟩ := RunsTo.initial.follow h
  rwa [CriticalBlock.after, hrun]

/-! ### The invariant -/

/-- The graph is linked, and a thread with nodes has a type unless its last node ended it. -/
structure Chained (ended : List ℕ) (b : CriticalBlock) : Prop where
  links : Links ended b.graph
  ended_of_noType : ∀ tid ≠ kNetworkThread, ∀ last, b.graph.getLastNodeForThread tid = some last →
    b.lastEdgeTypePerThread tid = none → last ∈ ended
  types : ∀ tid, b.lastEdgeTypePerThread tid ≠ some .vertical
  contexts : ∀ cpu, ∀ context ∈ b.context cpu, context.type ≠ .vertical

theorem chained_initial : Chained [] .initial where
  links := links_empty
  ended_of_noType := by
    rintro tid - last ⟨⟩
  types := by
    rintro tid ⟨⟩
  contexts := by
    rintro cpu context ⟨⟩

theorem resolveIRQ_ne (irq : ℕ) : resolveIRQ irq ≠ .vertical := by
  unfold resolveIRQ
  split <;> decide

theorem resolveSoftIRQ_ne (vec : ℕ) : resolveSoftIRQ vec ≠ .vertical := by
  unfold resolveSoftIRQ
  split <;> decide

theorem newEdgeType_ne (status : Option ThreadStatus) :
    CriticalBlock.newEdgeType status ≠ .vertical := by
  rcases status with _ | status
  · decide
  · cases status <;> decide

namespace Chained

variable {ended : List ℕ} {b b' : CriticalBlock}

/-- Only the contexts, and what the chains do not depend on, are changed. -/
theorem of_contexts (h : Chained ended b) (hgraph : b'.graph = b.graph)
    (htypes : b'.lastEdgeTypePerThread = b.lastEdgeTypePerThread)
    (hcontexts : ∀ cpu, ∀ context ∈ b'.context cpu, context.type ≠ .vertical) :
    Chained ended b' where
  links := hgraph ▸ h.links
  ended_of_noType := by
    rw [hgraph, htypes]
    exact h.ended_of_noType
  types := by
    rw [htypes]
    exact h.types
  contexts := hcontexts

theorem setTimestamp (h : Chained ended b) (ts : ℕ) : Chained ended (b.setTimestamp ts) where
  links := h.links.setTimestamp ts
  ended_of_noType := h.ended_of_noType
  types := h.types
  contexts := h.contexts

/-- The stack of one CPU is changed. -/
theorem of_stack (h : Chained ended b) (hgraph : b'.graph = b.graph)
    (htypes : b'.lastEdgeTypePerThread = b.lastEdgeTypePerThread) {cpu : ℕ}
    {stack : List InterruptContext} (hcontext : b'.context = update b.context cpu stack)
    (hstack : ∀ context ∈ stack, context.type ≠ .vertical) : Chained ended b' := by
  refine h.of_contexts hgraph htypes fun cpu' => ?_
  rw [hcontext]
  by_cases hcpu : cpu' = cpu
  · subst hcpu
    rwa [update_self]
  · rw [update_of_ne hcpu]
    exact h.contexts cpu'

theorem pushContext (h : Chained ended b) (cpu : ℕ) {type : CriticalEdgeType}
    (htype : type ≠ .vertical) : Chained ended (b.pushContext cpu type) :=
  h.of_stack rfl rfl rfl (List.forall_mem_cons.mpr ⟨htype, h.contexts cpu⟩)

theorem popContext (h : Chained ended b) (cpu : ℕ) (type : CriticalEdgeType) :
    Chained ended (b.popContext cpu type) := by
  unfold CriticalBlock.popContext
  split
  · exact h
  · next top rest hstack =>
      split
      · exact h
      · have hall := h.contexts cpu
        rw [hstack] at hall
        exact h.of_stack rfl rfl rfl (List.forall_mem_cons.mp hall).2

theorem onInetSockLocalIn (h : Chained ended b) (cpu : ℕ) (key : PacketKey) :
    Chained ended (b.onInetSockLocalIn cpu key) := by
  unfold CriticalBlock.onInetSockLocalIn
  split
  · exact h
  · split
    · exact h
    · next top rest hstack =>
        have hall := h.contexts cpu
        rw [hstack] at hall
        obtain ⟨htop, hrest⟩ := List.forall_mem_cons.mp hall
        exact h.of_stack rfl rfl rfl (List.forall_mem_cons.mpr ⟨htop, hrest⟩)

theorem addInterval (h : Chained ended b) (tid : ℕ) : Chained ended (b.addInterval tid) := by
  unfold CriticalBlock.addInterval
  split
  · exact h
  · exact h.of_contexts rfl rfl h.contexts

theorem onThreadName (h : Chained ended b) (tid : ℕ) (name : Option Bytes) :
    Chained ended (b.onThreadName tid name) := by
  unfold CriticalBlock.onThreadName
  split
  · exact h
  · split
    · exact h
    · split
      · exact h.of_contexts rfl rfl h.contexts
      · exact h

/-! ### The handlers that create nodes -/

/-- A new node of the network thread. -/
theorem createNetworkNode (h : Chained ended b) (ho : b.graph.Owned) :
    Chained ended { b with graph := (b.graph.createNode kNetworkThread).1 } where
  links := h.links.createNode ho fun hne => absurd rfl hne
  ended_of_noType := by
    intro tid htid last hlast
    rw [getLastNodeForThread_createNode, if_neg htid] at hlast
    exact h.ended_of_noType tid htid last hlast
  types := h.types
  contexts := h.contexts

theorem extend (h : Chained ended b) (ho : b.graph.Owned) {prev ts tid : ℕ}
    {type : CriticalEdgeType} (hprev : b.graph.label prev = some (ts, tid))
    (hlast : tid ≠ kNetworkThread → b.graph.getLastNodeForThread tid = some prev ∧
      b.lastEdgeTypePerThread tid = some type) (htype : type ≠ .vertical) :
    Chained ended { b with graph := b.graph.extend type prev tid } where
  links := h.links.extend ho hprev (fun htid => (hlast htid).1) htype
  ended_of_noType := by
    intro t ht last hlast' hnone
    have hnew : (b.graph.createNode tid).1.getLastNodeForThread t = some last := hlast'
    rw [getLastNodeForThread_createNode] at hnew
    by_cases hsame : t = tid
    · subst hsame
      have hsome := (hlast ht).2
      dsimp only at hnone
      rw [hnone] at hsome
      cases hsome
    · rw [if_neg hsame] at hnew
      exact h.ended_of_noType t ht last hnew hnone
  types := h.types
  contexts := h.contexts

theorem wakeUp (h : Chained ended b) (ho : b.graph.Owned) {n m id : ℕ} {g : CriticalGraph}
    (hcreate : b.graph.createVerticalEdge n m = .ok (g, id)) :
    Chained ended { b with graph := g } := by
  obtain ⟨⟨_, hn⟩, ⟨_, hm⟩, rfl⟩ := createEdge_ok hcreate
  exact ⟨h.links.wakeUp ho hn hm, h.ended_of_noType, h.types, h.contexts⟩

/-- A cut puts a node behind the last one, or does nothing. -/
theorem cutThread (h : Chained ended b) (ho : b.graph.Owned) {tid : ℕ} {node : Option ℕ}
    (hcut : b.cutThread tid = .ok (b', node)) : Chained ended b' ∧ b'.graph.Owned := by
  unfold CriticalBlock.cutThread at hcut
  cases hlast : b.graph.getLastNodeForThread tid with
  | none =>
      rw [hlast] at hcut
      cases hcut
      exact ⟨h, ho⟩
  | some prev =>
      rw [hlast] at hcut
      cases htype : b.lastEdgeTypePerThread tid with
      | none =>
          rw [htype] at hcut
          cases hcut
          exact ⟨h, ho⟩
      | some type =>
          rw [htype] at hcut
          have hprev := label_of_getLastNodeForThread ho hlast
          simp only [createNode_ptr, createHorizontalEdge_createNode type tid ho hprev, bind,
            Except.bind] at hcut
          cases hcut
          have hne : type ≠ .vertical := fun heq => h.types tid (heq ▸ htype)
          exact ⟨h.extend ho hprev (fun _ => ⟨hlast, htype⟩) hne, ho.extend type prev tid⟩

theorem onInetSockLocalOut (h : Chained ended b) (ho : b.graph.Owned) {cpu tid : ℕ}
    {key : PacketKey} (hevent : b.onInetSockLocalOut cpu tid key = .ok b') : Chained ended b' := by
  unfold CriticalBlock.onInetSockLocalOut at hevent
  split at hevent
  · cases hevent
    exact h
  · obtain ⟨⟨cut, source⟩, hcut, hevent⟩ := bind_eq_ok.mp hevent
    obtain ⟨hchained, howned⟩ := h.cutThread ho hcut
    cases source with
    | none =>
        cases hevent
        exact hchained
    | some source =>
        obtain ⟨⟨g, id⟩, hcreate, hevent⟩ := bind_eq_ok.mp hevent
        cases hevent
        have hnode := hchained.createNetworkNode howned
        exact (hnode.wakeUp (howned.createNode _) hcreate).of_contexts rfl rfl hnode.contexts

theorem onTTWUBetweenThreads (h : Chained ended b) (ho : b.graph.Owned)
    {sourceTid targetTid : ℕ} (hevent : b.onTTWUBetweenThreads sourceTid targetTid = .ok b') :
    Chained ended b' := by
  unfold CriticalBlock.onTTWUBetweenThreads at hevent
  have hdisk : Chained ended (if sourceTid ∈ b.diskThreads then b.addInterval targetTid else b) ∧
      (if sourceTid ∈ b.diskThreads then b.addInterval targetTid else b).graph.Owned := by
    split
    · exact ⟨h.addInterval targetTid, by rwa [CriticalBlock.graph_addInterval]⟩
    · exact ⟨h, ho⟩
  obtain ⟨⟨cut, source⟩, hcut, hevent⟩ := bind_eq_ok.mp hevent
  obtain ⟨hchained, howned⟩ := hdisk.1.cutThread hdisk.2 hcut
  cases source with
  | none =>
      cases hevent
      exact hchained
  | some source =>
      obtain ⟨⟨cut', target⟩, hcut', hevent⟩ := bind_eq_ok.mp hevent
      obtain ⟨hchained', howned'⟩ := hchained.cutThread howned hcut'
      cases target with
      | none =>
          cases hevent
          exact hchained'
      | some target =>
          obtain ⟨⟨g, id⟩, hcreate, hevent⟩ := bind_eq_ok.mp hevent
          cases hevent
          exact hchained'.wakeUp howned' hcreate

/-- The network thread is extended from the node of a packet. -/
theorem wakeupFromNetwork (h : Chained ended b) (ho : b.graph.Owned) {node targetTid : ℕ}
    (hnode : node < b.graph.nextNode)
    (hnetwork : ∀ ts tid, b.graph.label node = some (ts, tid) → tid = kNetworkThread)
    (hevent : b.wakeupFromNetwork node targetTid = .ok b') : Chained ended b' := by
  unfold CriticalBlock.wakeupFromNetwork at hevent
  obtain ⟨⟨g, id⟩, hcreate, hevent⟩ := bind_eq_ok.mp hevent
  obtain ⟨⟨⟨ts, tid⟩, hlabel⟩, -, hg⟩ := createEdge_ok hcreate
  have hold : (b.graph.createNode kNetworkThread).1.label node = some (ts, tid) := hlabel
  rw [label_createNode, update_of_ne hnode.ne] at hold
  obtain rfl := hnetwork ts tid hold
  have hextend : Chained ended { b with graph := b.graph.extend .run node kNetworkThread } :=
    h.extend ho hold (fun hne => absurd rfl hne) (by decide)
  have hgraph : g = b.graph.extend .run node kNetworkThread := hg
  subst hgraph
  obtain ⟨⟨cut, target⟩, hcut, hevent⟩ := bind_eq_ok.mp hevent
  obtain ⟨hchained, howned⟩ := hextend.cutThread (ho.extend _ _ _) hcut
  cases target with
  | none =>
      cases hevent
      exact hchained
  | some target =>
      obtain ⟨⟨g, id⟩, hcreate, hevent⟩ := bind_eq_ok.mp hevent
      cases hevent
      exact hchained.wakeUp howned hcreate

/-- One thread gets a type, or loses it together with the end of the thread. -/
theorem of_type (h : Chained ended b) {ended' : List ℕ} (hsubset : ended ⊆ ended')
    (hlinks : Links ended' b'.graph) (hcontext : b'.context = b.context) {tid : ℕ}
    {type : Option CriticalEdgeType} (htype : type ≠ some .vertical)
    (htypes : b'.lastEdgeTypePerThread = update b.lastEdgeTypePerThread tid type)
    (hothers : ∀ t ≠ tid, b'.graph.getLastNodeForThread t = b.graph.getLastNodeForThread t)
    (hended : type = none → ∀ last, b'.graph.getLastNodeForThread tid = some last →
      last ∈ ended') : Chained ended' b' where
  links := hlinks
  ended_of_noType := by
    intro t ht last hlast hnone
    rw [htypes] at hnone
    by_cases hsame : t = tid
    · subst hsame
      rw [update_self] at hnone
      exact hended hnone last hlast
    · rw [update_of_ne hsame] at hnone
      rw [hothers t hsame] at hlast
      exact hsubset (h.ended_of_noType t ht last hlast hnone)
  types := by
    intro t
    rw [htypes]
    by_cases hsame : t = tid
    · subst hsame
      rwa [update_self]
    · rw [update_of_ne hsame]
      exact h.types t
  contexts := by
    rw [hcontext]
    exact h.contexts

/-- What a status does to the graph: the thread gets a node, with a link or without. -/
theorem status_graph (h : Chained ended b) (ho : b.graph.Owned) {tid : ℕ}
    {status : Option ThreadStatus} (hevent : b.onThreadStatus tid status = .ok b') :
    b' = b ∨ ∃ g, Links ended g ∧
      g.nodesOf = update b.graph.nodesOf tid (b.graph.nodesOf tid ++ [b.graph.nextNode]) ∧
      b' = { b with
        graph := g
        lastEdgeTypePerThread := update b.lastEdgeTypePerThread tid
          (status.map fun _ => CriticalBlock.newEdgeType status) } := by
  unfold CriticalBlock.onThreadStatus at hevent
  split at hevent
  · cases hevent
    exact .inl rfl
  · right
    cases hlast : b.graph.getLastNodeForThread tid with
    | none =>
        rw [hlast] at hevent
        cases hevent
        refine ⟨_, h.links.createNode ho fun _ last hsome => ?_, rfl, rfl⟩
        rw [hlast] at hsome
        cases hsome
    | some prev =>
        rw [hlast] at hevent
        cases htype : b.lastEdgeTypePerThread tid with
        | none =>
            rw [htype] at hevent
            cases hevent
            refine ⟨_, h.links.createNode ho fun htid last hsome => ?_, rfl, rfl⟩
            exact h.ended_of_noType tid htid last hsome htype
        | some type =>
            rw [htype] at hevent
            have hprev := label_of_getLastNodeForThread ho hlast
            simp only [createNode_ptr, createHorizontalEdge_createNode type tid ho hprev, bind,
              Except.bind] at hevent
            cases hevent
            have hne : type ≠ .vertical := fun heq => h.types tid (heq ▸ htype)
            exact ⟨_, h.links.extend ho hprev (fun _ => hlast) hne, rfl, rfl⟩

theorem mono (h : Chained ended b) {ended' : List ℕ} (hsubset : ended ⊆ ended') :
    Chained ended' b :=
  ⟨h.links.mono hsubset, fun tid htid last hlast hnone =>
    hsubset (h.ended_of_noType tid htid last hlast hnone), h.types, h.contexts⟩

theorem onThreadStatus (h : Chained ended b) (ho : b.graph.Owned) {tid : ℕ}
    {status : Option ThreadStatus} (hevent : b.onThreadStatus tid status = .ok b')
    {ended' : List ℕ} (hsubset : ended ⊆ ended')
    (hended : status = none → ∀ n ∈ b'.graph.nodesOf tid, n ∉ b.graph.nodesOf tid →
      n ∈ ended') : Chained ended' b' := by
  rcases h.status_graph ho hevent with rfl | ⟨g, hlinks, hnodes, rfl⟩
  · exact h.mono hsubset
  · refine h.of_type hsubset (hlinks.mono hsubset) rfl ?_ rfl ?_ ?_
    · cases status with
      | none => rintro ⟨⟩
      | some status => exact fun heq => newEdgeType_ne (some status) (Option.some.inj heq)
    · intro t ht
      show (g.nodesOf t).getLast? = _
      rw [hnodes, update_of_ne ht]
      rfl
    · intro hnone last hlast
      have hlast' : (g.nodesOf tid).getLast? = some last := hlast
      have hmem : last ∈ g.nodesOf tid := List.mem_of_getLast? hlast'
      rw [hnodes, update_self, List.getLast?_concat] at hlast'
      obtain rfl := Option.some.inj hlast'
      refine hended (Option.map_eq_none_iff.mp hnone) _ hmem fun hold => ?_
      exact absurd (ho.lt_next (ho.label_of_mem hold)) (lt_irrefl _)

theorem onWakeupFromInterrupt (h : Chained ended b) (ho : b.graph.Owned)
    (hp : b.PointersKnown) {cpu targetTid : ℕ} {context : InterruptContext}
    (hcontext : context ∈ b.context cpu)
    (hevent : b.onWakeupFromInterrupt context targetTid = .ok b') : Chained ended b' := by
  unfold CriticalBlock.onWakeupFromInterrupt at hevent
  split at hevent
  · cases hevent
    exact h
  · cases hnode : context.node with
    | some node =>
        rw [hnode] at hevent
        obtain ⟨hlt, hnetwork⟩ := hp node (.inr ⟨cpu, context, hcontext, hnode⟩)
        exact h.wakeupFromNetwork ho hlt hnetwork hevent
    | none =>
        rw [hnode] at hevent
        cases hevent
        have hdisk : ∀ {d : CriticalBlock}, Chained ended d → d.graph = b.graph →
            d.context = b.context → Chained ended { d with
              lastEdgeTypePerThread :=
                update d.lastEdgeTypePerThread targetTid (some context.type) } := by
          intro d hd hgraph hcontexts
          refine hd.of_type (fun _ hn => hn) hd.links rfl ?_ rfl (fun _ _ => rfl) (by rintro ⟨⟩)
          exact fun heq => h.contexts cpu context hcontext (Option.some.inj heq)
        split
        · exact hdisk (h.addInterval targetTid) (by simp) (by simp)
        · exact hdisk h rfl rfl

theorem onTTWU (h : Chained ended b) (ho : b.graph.Owned) (hp : b.PointersKnown)
    {kInvalidThread sourceCpu sourceTid targetTid : ℕ}
    (hevent : b.onTTWU kInvalidThread sourceCpu sourceTid targetTid = .ok b') :
    Chained ended b' := by
  unfold CriticalBlock.onTTWU at hevent
  split at hevent
  · next top rest hstack =>
      have htop : top ∈ b.context sourceCpu := by
        rw [hstack]
        exact List.mem_cons_self
      exact h.onWakeupFromInterrupt ho hp htop hevent
  · split at hevent
    · exact h.onTTWUBetweenThreads ho hevent
    · cases hevent
      exact h

/-! ### Steps and runs -/

theorem event (h : Chained ended b) (ho : b.graph.Owned) (hp : b.PointersKnown)
    {kInvalidThread ts : ℕ} {event : Event}
    (hstep : b.step kInvalidThread (.event ts event) = .ok b') :
    Chained (ended ++ Step.exitNodes b b' (.event ts event)) b' := by
  have hstart := h.setTimestamp ts
  have hstart' := ho.setTimestamp ts
  have hkeep : Chained ended b' → Chained (ended ++ Step.exitNodes b b' (.event ts event)) b' :=
    fun hchained => hchained.mono (List.subset_append_left ..)
  cases event with
  | ttwu cpu sourceTid targetTid => exact hkeep (hstart.onTTWU hstart' hp hstep)
  | softIrqEntry cpu vec =>
      cases hstep
      exact hkeep (hstart.pushContext cpu (resolveSoftIRQ_ne vec))
  | softIrqExit cpu vec =>
      cases hstep
      exact hkeep (hstart.popContext cpu (resolveSoftIRQ vec))
  | irqHandlerEntry cpu irq =>
      cases hstep
      exact hkeep (hstart.pushContext cpu (resolveIRQ_ne irq))
  | irqHandlerExit cpu irq =>
      cases hstep
      exact hkeep (hstart.popContext cpu (resolveIRQ irq))
  | hrtimerExpireEntry cpu =>
      cases hstep
      exact hkeep (hstart.pushContext cpu (by decide))
  | hrtimerExpireExit cpu =>
      cases hstep
      exact hkeep (hstart.popContext cpu .timer)
  | inetSockLocalIn cpu key =>
      cases hstep
      exact hkeep (hstart.onInetSockLocalIn cpu key)
  | inetSockLocalOut cpu tid key => exact hkeep (hstart.onInetSockLocalOut hstart' hstep)
  | threadStatus tid status =>
      refine hstart.onThreadStatus hstart' hstep (List.subset_append_left ..) ?_
      rintro rfl n hn hnew
      exact List.mem_append_right _ (List.mem_filter.mpr ⟨hn, decide_eq_true hnew⟩)
  | threadName tid name =>
      cases hstep
      exact hkeep (hstart.onThreadName tid name)

/-- A cleanup keeps the last node of a thread, or takes all of its nodes. -/
theorem cleanup (h : Chained ended b) (ho : b.graph.Owned) {kInvalidThread ts : ℕ}
    {order : List ℕ} (hstep : b.step kInvalidThread (.cleanup ts order) = .ok b') :
    Chained ended b' := by
  obtain ⟨g, hclean, hb'⟩ := bind_eq_ok.mp hstep
  obtain rfl := Except.ok.inj hb'
  refine ⟨h.links.cleanup ho hclean, ?_, h.types, h.contexts⟩
  intro tid htid last hlast hnone
  obtain ⟨stale, hsplit⟩ := (below_cleanup ho hclean).nodesOf (t := tid)
  have hlast' : b.graph.getLastNodeForThread tid = some last := by
    unfold getLastNodeForThread at hlast ⊢
    rw [← hsplit, List.getLast?_append, hlast]
    rfl
  exact h.ended_of_noType tid htid last hlast' hnone

theorem step (h : Chained ended b) (ho : b.graph.Owned) (hp : b.PointersKnown)
    {kInvalidThread : ℕ} {s : Step} (hstep : b.step kInvalidThread s = .ok b') :
    Chained (ended ++ s.exitNodes b b') b' := by
  cases s with
  | event ts event => exact h.event ho hp hstep
  | cleanup ts order => exact (h.cleanup ho hstep).mono (List.subset_append_left ..)

end Chained

theorem RunsTo.chained {kInvalidThread : ℕ} {b : CriticalBlock} {ended : List ℕ}
    (h : RunsTo kInvalidThread b ended) : Chained ended b := by
  induction h with
  | initial => exact chained_initial
  | step hrun _ hstep ih =>
      have hknown := hrun.reachable.known
      exact ih.step hknown.owned hknown.pointers hstep

/-- In every run, the nodes of a thread are in the order of time, and each of them is joined
with the next one by one horizontal edge, unless the thread ended with it. -/
theorem joinedOnce_of_runsTo {kInvalidThread : ℕ} {b : CriticalBlock} {ended : List ℕ}
    (h : RunsTo kInvalidThread b ended) {tid : ℕ} (htid : tid ≠ kNetworkThread) :
    ((b.graph.nodesOf tid).Pairwise fun n m => b.graph.tsOf n ≤ b.graph.tsOf m) ∧
      ∀ n m, [n, m] <:+: b.graph.nodesOf tid → n ∉ ended → b.graph.JoinedOnce n m := by
  have hknown := h.reachable.known
  refine ⟨hknown.clocked.timeOrdered hknown.owned tid, ?_⟩
  intro n m hnm hn
  have hlinks := h.chained.links
  have hjoined := (hlinks.linked tid htid n m hnm).resolve_left hn
  have hfrom : n ∈ b.graph.nodesOf tid := hnm.subset List.mem_cons_self
  have hto : m ∈ b.graph.nodesOf tid := hnm.subset (List.mem_cons_of_mem _ List.mem_cons_self)
  exact hlinks.joinedOnce (OnThread.of_mem hknown.owned htid hfrom)
    (OnThread.of_mem hknown.owned htid hto) hjoined

/-- Thread 1 waits from 3 to 4, exits at 5 and comes back at 6. -/
def comesBack : List Step :=
  [.event 1 (.threadStatus 1 (some .runUsermode)), .event 2 (.threadStatus 2 (some .runUsermode)),
    .event 3 (.threadStatus 1 (some .waitBlocked)), .event 4 (.ttwu 0 2 1),
    .event 5 (.threadStatus 1 none), .event 6 (.threadStatus 1 (some .runUsermode)),
    .cleanup 3 [1, 2]]

theorem joinedOnce_comesBack :
    (CriticalBlock.after 4294967295 comesBack).graph.nodesOf 1 = [2, 4, 5, 6] ∧
      ((CriticalBlock.after 4294967295 comesBack).graph.nodesOf 1).Pairwise
        (fun n m => (CriticalBlock.after 4294967295 comesBack).graph.tsOf n ≤
          (CriticalBlock.after 4294967295 comesBack).graph.tsOf m) ∧
      (CriticalBlock.after 4294967295 comesBack).graph.JoinedOnce 2 4 ∧
      (CriticalBlock.after 4294967295 comesBack).graph.JoinedOnce 4 5 := by
  have hfollows : Follows 4294967295 (fun _ _ => True) .initial comesBack := by decide
  have hended : exitNodesOfRun 4294967295 .initial comesBack = [5] := by decide
  have hruns := hfollows.runsTo_after
  rw [hended] at hruns
  have hnodes : (CriticalBlock.after 4294967295 comesBack).graph.nodesOf 1 = [2, 4, 5, 6] := by
    decide
  obtain ⟨hordered, hjoined⟩ := joinedOnce_of_runsTo hruns (show 1 ≠ kNetworkThread by decide)
  rw [hnodes] at hjoined
  exact ⟨hnodes, hordered, hjoined 2 4 ⟨[], [5, 6], rfl⟩ (by decide),
    hjoined 4 5 ⟨[2], [6], rfl⟩ (by decide)⟩

end TibeeCompare.CriticalBlocks
