import TibeeCompare.CriticalBlocks.CriticalBlock
import TibeeCompare.Critical.Built
import TibeeCompare.Critical.CallSteps

/-!
What one event can do to the graph and to the node pointers.

A handler goes through a few elementary steps: it appends a node, with or
without a link from a node before it, or it joins two nodes of the current
timestamp by a wake-up. `Grows` lists these steps with what holds when they are
made; `onEvent_grows` says that every event is a sequence of them. What holds of
the graphs that are built is then proved step by step.
-/

namespace TibeeCompare.Critical.CriticalGraph

open Function

/-- A new node at the end of a thread, with an edge that leads to it. -/
def extend (g : CriticalGraph) (type : CriticalEdgeType) (prev tid : ℕ) : CriticalGraph :=
  (g.createNode tid).1.withEdge ⟨type, prev, g.nextNode⟩ .outHorizontal

section extend

variable (g : CriticalGraph) (type : CriticalEdgeType) (prev tid : ℕ)

@[simp] theorem label_extend :
    (g.extend type prev tid).label = update g.label g.nextNode (some (g.ts, tid)) := by
  simp [extend]

@[simp] theorem nodesOf_extend :
    (g.extend type prev tid).nodesOf =
      update g.nodesOf tid (g.nodesOf tid ++ [g.nextNode]) := rfl

@[simp] theorem ts_extend : (g.extend type prev tid).ts = g.ts := rfl

@[simp] theorem nextNode_extend : (g.extend type prev tid).nextNode = g.nextNode + 1 := rfl

@[simp] theorem edges_extend :
    (g.extend type prev tid).edges =
      update g.edges g.nextEdgeId (some ⟨type, prev, g.nextNode⟩) := rfl

variable {g prev}

theorem createHorizontalEdge_createNode (ho : g.Owned) {label : ℕ × ℕ}
    (hprev : g.label prev = some label) :
    (g.createNode tid).1.createHorizontalEdge type prev g.nextNode =
      .ok (g.extend type prev tid, g.nextEdgeId) := by
  refine createEdge_of_label (?_ : _ = some label) (?_ : _ = some (g.ts, tid))
  · rw [label_createNode, update_of_ne (ho.lt_next hprev).ne, hprev]
  · rw [label_createNode, update_self]

theorem slot_extend (ho : g.Owned) {label : ℕ × ℕ} (hprev : g.label prev = some label) (n : ℕ)
    (p : CriticalEdgePosition) :
    (g.extend type prev tid).slot n p =
      if (n = g.nextNode ∧ p = .inHorizontal) ∨ (n = prev ∧ p = .outHorizontal) then
        some g.nextEdgeId
      else if n = g.nextNode then none else g.slot n p := by
  have hfrom : (g.createNode tid).1.label prev = some label := by
    rw [label_createNode, update_of_ne (ho.lt_next hprev).ne, hprev]
  have hto : (g.createNode tid).1.label g.nextNode = some (g.ts, tid) := by
    rw [label_createNode, update_self]
  unfold extend
  rw [slot_withEdge ⟨type, prev, g.nextNode⟩ hfrom hto, slot_createNode]
  rfl

end extend

/-- The elementary steps of the handlers. `Hop` is what is known, besides its
thread, of the node from which the network thread is extended. -/
inductive Grows (Hop : CriticalGraph → ℕ → Prop) (g₀ : CriticalGraph) : CriticalGraph → Prop
  | refl : Grows Hop g₀ g₀
  | node {g : CriticalGraph} (tid : ℕ) : Grows Hop g₀ g → Grows Hop g₀ (g.createNode tid).1
  | cut {g : CriticalGraph} (type : CriticalEdgeType) {prev tid : ℕ} : Grows Hop g₀ g →
      g.getLastNodeForThread tid = some prev → Grows Hop g₀ (g.extend type prev tid)
  | hop {g : CriticalGraph} {prev ts : ℕ} : Grows Hop g₀ g →
      g.label prev = some (ts, kNetworkThread) → Hop g prev →
      Grows Hop g₀ (g.extend .run prev kNetworkThread)
  | wakeUp {g : CriticalGraph} {n m t t' : ℕ} : Grows Hop g₀ g → n < m →
      g.label n = some (g.ts, t) → g.label m = some (g.ts, t') →
      g.slot n .outVertical = none → g.slot m .inVertical = none →
      Grows Hop g₀ (g.withEdge ⟨.vertical, n, m⟩ .outVertical)

theorem label_of_getLastNodeForThread {g : CriticalGraph} (ho : g.Owned) {tid prev : ℕ}
    (h : g.getLastNodeForThread tid = some prev) : g.label prev = some (g.tsOf prev, tid) :=
  ho.label_of_mem (mem_of_getLastNodeForThread h)

theorem Owned.extend {g : CriticalGraph} (ho : g.Owned) (type : CriticalEdgeType)
    (prev tid : ℕ) : (g.extend type prev tid).Owned :=
  (ho.createNode tid).withEdge ..

/-- A node of the current timestamp that takes no part in a wake-up yet. -/
structure Fresh (g : CriticalGraph) (n tid : ℕ) : Prop where
  label : g.label n = some (g.ts, tid)
  outVertical : g.slot n .outVertical = none
  inVertical : g.slot n .inVertical = none

theorem fresh_createNode (g : CriticalGraph) (tid : ℕ) :
    (g.createNode tid).1.Fresh g.nextNode tid where
  label := by rw [label_createNode, update_self, ts_createNode]
  outVertical := by rw [slot_createNode, if_pos rfl]
  inVertical := by rw [slot_createNode, if_pos rfl]

theorem Fresh.createNode {g : CriticalGraph} (ho : g.Owned) {n tid : ℕ} (h : g.Fresh n tid)
    (tid' : ℕ) : (g.createNode tid').1.Fresh n tid := by
  have hn := (ho.lt_next h.label).ne
  refine ⟨?_, ?_, ?_⟩
  · rw [label_createNode, update_of_ne hn, h.label, ts_createNode]
  · rw [slot_createNode, if_neg hn, h.outVertical]
  · rw [slot_createNode, if_neg hn, h.inVertical]

theorem fresh_extend {g : CriticalGraph} (ho : g.Owned) {prev : ℕ} {label : ℕ × ℕ}
    (hprev : g.label prev = some label) (type : CriticalEdgeType) (tid : ℕ) :
    (g.extend type prev tid).Fresh g.nextNode tid where
  label := by rw [label_extend, update_self, ts_extend]
  outVertical := by simp [slot_extend type tid ho hprev]
  inVertical := by simp [slot_extend type tid ho hprev]

theorem Fresh.extend {g : CriticalGraph} (ho : g.Owned) {prev : ℕ} {label : ℕ × ℕ}
    (hprev : g.label prev = some label) {n tid : ℕ} (h : g.Fresh n tid)
    (type : CriticalEdgeType) (tid' : ℕ) : (g.extend type prev tid').Fresh n tid := by
  have hn := (ho.lt_next h.label).ne
  refine ⟨?_, ?_, ?_⟩
  · rw [label_extend, update_of_ne hn, h.label, ts_extend]
  · simp [slot_extend type tid' ho hprev, hn, h.outVertical]
  · simp [slot_extend type tid' ho hprev, hn, h.inVertical]

theorem createVerticalEdge_fresh {g : CriticalGraph} {n m t t' : ℕ} (hn : g.Fresh n t)
    (hm : g.Fresh m t') :
    g.createVerticalEdge n m = .ok (g.withEdge ⟨.vertical, n, m⟩ .outVertical, g.nextEdgeId) :=
  createEdge_of_label hn.label hm.label

section grows

variable {Hop : CriticalGraph → ℕ → Prop} {g g' : CriticalGraph}

theorem Grows.owned (h : Grows Hop g g') (ho : g.Owned) : g'.Owned := by
  induction h with
  | refl => exact ho
  | node tid _ ih => exact ih.createNode tid
  | cut type _ _ ih => exact ih.extend ..
  | hop _ _ _ ih => exact ih.extend ..
  | wakeUp _ _ _ _ _ _ ih => exact ih.withEdge ..

theorem Grows.join {g₀ : CriticalGraph} (h : Grows Hop g₀ g) {n m t t' : ℕ} (hlt : n < m)
    (hn : g.Fresh n t) (hm : g.Fresh m t') :
    Grows Hop g₀ (g.withEdge ⟨.vertical, n, m⟩ .outVertical) :=
  h.wakeUp hlt hn.label hm.label hn.outVertical hm.inVertical

@[simp] theorem Grows.ts (h : Grows Hop g g') : g'.ts = g.ts := by
  induction h with
  | refl => rfl
  | node tid _ ih => exact ih
  | cut type _ _ ih => exact ih
  | hop _ _ _ ih => exact ih
  | wakeUp _ _ _ _ _ _ ih => exact ih

theorem Grows.nextNode_le (h : Grows Hop g g') : g.nextNode ≤ g'.nextNode := by
  induction h with
  | refl => exact le_refl _
  | node tid _ ih => exact Nat.le_succ_of_le ih
  | cut type _ _ ih => exact Nat.le_succ_of_le ih
  | hop _ _ _ ih => exact Nat.le_succ_of_le ih
  | wakeUp _ _ _ _ _ _ ih => exact ih

/-- Nothing happens to the timestamps and threads of nodes, or of freed nodes. -/
theorem Grows.label_of_lt (h : Grows Hop g g') {n : ℕ} (hn : n < g.nextNode) :
    g'.label n = g.label n := by
  have hnew : ∀ {g₁ : CriticalGraph} {fresh : Option (ℕ × ℕ)}, Grows Hop g g₁ →
      g₁.label n = g.label n → update g₁.label g₁.nextNode fresh n = g.label n := by
    intro g₁ fresh hg ih
    rw [update_of_ne (lt_of_lt_of_le hn hg.nextNode_le).ne, ih]
  induction h with
  | refl => rfl
  | node tid hg ih =>
      rw [label_createNode]
      exact hnew hg ih
  | cut type hg _ ih =>
      rw [label_extend]
      exact hnew hg ih
  | hop hg _ _ ih =>
      rw [label_extend]
      exact hnew hg ih
  | wakeUp _ _ _ _ _ _ ih => rw [label_withEdge, ih]

theorem Grows.label (h : Grows Hop g g') (ho : g.Owned) {n : ℕ} {label : ℕ × ℕ}
    (hn : g.label n = some label) : g'.label n = some label := by
  rw [h.label_of_lt (ho.lt_next hn), hn]

/-- The nodes are created in the order of time. -/
structure Clocked (g : CriticalGraph) : Prop where
  past : ∀ {n ts tid}, g.label n = some (ts, tid) → ts ≤ g.ts
  ordered : ∀ {n m ts ts' t t'}, n < m → g.label n = some (ts, t) → g.label m = some (ts', t') →
    ts ≤ ts'

theorem clocked_empty : empty.Clocked where
  past h := by cases h
  ordered _ h := by cases h

theorem Clocked.setTimestamp (h : g.Clocked) {ts : ℕ} (hle : g.ts ≤ ts) :
    (g.setTimestamp ts).Clocked where
  past hn := (h.past hn).trans hle
  ordered := h.ordered

theorem Clocked.of_below (h : g.Clocked) (hbelow : Below g' g) : g'.Clocked where
  past hn := hbelow.ts ▸ h.past (hbelow.label hn)
  ordered hlt hn hm := h.ordered hlt (hbelow.label hn) (hbelow.label hm)

/-- A new node of the current timestamp. -/
theorem Clocked.of_update (h : g.Clocked) (ho : g.Owned) {tid : ℕ} (hts : g'.ts = g.ts)
    (hlabel : g'.label = update g.label g.nextNode (some (g.ts, tid))) : g'.Clocked := by
  have hcases : ∀ {n ts t}, g'.label n = some (ts, t) →
      (n = g.nextNode ∧ ts = g.ts) ∨ (n < g.nextNode ∧ g.label n = some (ts, t)) := by
    intro n ts t hn
    rw [hlabel] at hn
    by_cases heq : n = g.nextNode
    · subst heq
      rw [update_self] at hn
      exact .inl ⟨rfl, (Prod.mk.inj (Option.some.inj hn)).1.symm⟩
    · rw [update_of_ne heq] at hn
      exact .inr ⟨ho.lt_next hn, hn⟩
  refine ⟨?_, ?_⟩
  · intro n ts t hn
    rcases hcases hn with ⟨-, rfl⟩ | ⟨-, hold⟩
    · exact hts.ge
    · exact hts ▸ h.past hold
  · intro n m ts ts' t t' hlt hn hm
    rcases hcases hm with ⟨rfl, rfl⟩ | ⟨hm', hmold⟩
    · rcases hcases hn with ⟨rfl, -⟩ | ⟨-, hold⟩
      · exact absurd hlt (lt_irrefl _)
      · exact h.past hold
    · rcases hcases hn with ⟨rfl, -⟩ | ⟨-, hold⟩
      · exact absurd (hlt.trans hm') (lt_irrefl _)
      · exact h.ordered hlt hold hmold

theorem Clocked.withEdge (h : g.Clocked) (edge : CriticalEdge) (out : CriticalEdgePosition) :
    (g.withEdge edge out).Clocked where
  past hn := by
    rw [label_withEdge] at hn
    exact h.past hn
  ordered hlt hn hm := by
    rw [label_withEdge] at hn hm
    exact h.ordered hlt hn hm

theorem Grows.clocked (h : Grows Hop g g') (ho : g.Owned) (hg : g.Clocked) : g'.Clocked := by
  induction h with
  | refl => exact hg
  | node tid hgrows ih => exact ih.of_update (hgrows.owned ho) rfl (label_createNode ..)
  | cut type hgrows _ ih => exact ih.of_update (hgrows.owned ho) rfl (label_extend ..)
  | hop hgrows _ _ ih => exact ih.of_update (hgrows.owned ho) rfl (label_extend ..)
  | wakeUp _ _ _ _ _ _ ih => exact ih.withEdge ..

theorem Grows.edgesForward (h : Grows Hop g g') (ho : g.Owned) (hg : g.EdgesForward) :
    g'.EdgesForward := by
  have hnew : ∀ {g₁ : CriticalGraph} {type : CriticalEdgeType} {n m : ℕ}, g₁.EdgesForward →
      n < m → ∀ {e edge'}, update g₁.edges g₁.nextEdgeId (some ⟨type, n, m⟩) e = some edge' →
        edge'.fromNode < edge'.toNode := by
    intro g₁ type n m hg₁ hlt e edge' hedge'
    by_cases he : e = g₁.nextEdgeId
    · subst he
      rw [update_self] at hedge'
      obtain rfl := Option.some.inj hedge'
      exact hlt
    · rw [update_of_ne he] at hedge'
      exact hg₁ hedge'
  induction h with
  | refl => exact hg
  | node tid _ ih => exact ih
  | cut type hgrows hlast ih =>
      intro e edge hedge
      have ho' := hgrows.owned ho
      exact hnew ih (ho'.lt_next (label_of_getLastNodeForThread ho' hlast)) hedge
  | hop hgrows hprev _ ih =>
      intro e edge hedge
      exact hnew ih ((hgrows.owned ho).lt_next hprev) hedge
  | wakeUp _ hlt _ _ _ _ ih =>
      intro e edge hedge
      exact hnew ih hlt hedge

/-- The vectors of a clocked graph are in the order of time. -/
theorem Clocked.timeOrdered (h : g.Clocked) (ho : g.Owned) (tid : ℕ) :
    (g.nodesOf tid).Pairwise fun n m => g.tsOf n ≤ g.tsOf m := by
  refine (ho.sorted tid).imp_of_mem ?_
  intro n m hn hm hlt
  exact h.ordered hlt (ho.label_of_mem hn) (ho.label_of_mem hm)

end grows

end TibeeCompare.Critical.CriticalGraph

namespace TibeeCompare.CriticalBlocks

open Critical Critical.CriticalGraph Function

namespace CriticalBlock

/-- The block keeps a pointer to the node. -/
def Refers (b : CriticalBlock) (n : ℕ) : Prop :=
  (∃ key, b.networkNodes key = some n) ∨ ∃ cpu, ∃ context ∈ b.context cpu, context.node = some n

/-- The node in the interrupt context of a wake-up through the network: the node
of the packet that the interrupt received. -/
def networkNode (b : CriticalBlock) : Event → Option ℕ
  | .ttwu cpu _ targetTid =>
      if b.lastEdgeTypePerThread targetTid = some .waitBlocked then
        (b.context cpu).head?.bind (·.node)
      else none
  | _ => none

theorem refers_networkNode {b : CriticalBlock} {event : Event} {node : ℕ}
    (h : b.networkNode event = some node) : b.Refers node := by
  cases event with
  | ttwu cpu sourceTid targetTid =>
      simp only [networkNode] at h
      split at h
      · obtain ⟨top, htop, hnode⟩ := Option.bind_eq_some_iff.mp h
        exact .inr ⟨cpu, top, List.mem_of_head? htop, hnode⟩
      · cases h
  | _ => cases h

/-- What an event does: the graph grows, and a pointer that is kept was kept
before or points to a new node of the network thread. -/
structure Effect (Hop : CriticalGraph → ℕ → Prop) (b b' : CriticalBlock) : Prop where
  grows : Grows Hop b.graph b'.graph
  refers : ∀ n, b'.Refers n →
    b.Refers n ∨ b'.graph.label n = some (b'.graph.ts, kNetworkThread)

variable {Hop : CriticalGraph → ℕ → Prop}

/-- The graph grows and the pointers stay the same. -/
theorem effect_of_grows {b b' : CriticalBlock} (hgrows : Grows Hop b.graph b'.graph)
    (hcontext : b'.context = b.context) (hnodes : b'.networkNodes = b.networkNodes) :
    Effect Hop b b' where
  grows := hgrows
  refers n hn := by
    unfold Refers at hn
    rw [hcontext, hnodes] at hn
    exact .inl hn

/-- The graph is left alone, and no pointer is added. -/
theorem effect_of_refers {b b' : CriticalBlock} (hgraph : b'.graph = b.graph)
    (hrefers : ∀ n, b'.Refers n → b.Refers n) : Effect Hop b b' where
  grows := hgraph ▸ .refl
  refers n hn := .inl (hrefers n hn)

@[simp] theorem graph_addInterval (b : CriticalBlock) (tid : ℕ) :
    (b.addInterval tid).graph = b.graph := by
  unfold addInterval
  split <;> rfl

@[simp] theorem context_addInterval (b : CriticalBlock) (tid : ℕ) :
    (b.addInterval tid).context = b.context := by
  unfold addInterval
  split <;> rfl

@[simp] theorem networkNodes_addInterval (b : CriticalBlock) (tid : ℕ) :
    (b.addInterval tid).networkNodes = b.networkNodes := by
  unfold addInterval
  split <;> rfl

/-- Either there is nothing to cut, or the thread is extended from its last node. -/
theorem cutThread_cases {b : CriticalBlock} (ho : b.graph.Owned) (tid : ℕ) :
    b.cutThread tid = .ok (b, none) ∨
      ∃ prev type, b.graph.getLastNodeForThread tid = some prev ∧
        b.cutThread tid = .ok ({ b with graph := b.graph.extend type prev tid },
          some b.graph.nextNode) := by
  unfold cutThread
  cases hlast : b.graph.getLastNodeForThread tid with
  | none => exact .inl rfl
  | some prev =>
      cases b.lastEdgeTypePerThread tid with
      | none => exact .inl rfl
      | some type =>
          have hcreate := createHorizontalEdge_createNode type tid ho
            (label_of_getLastNodeForThread ho hlast)
          right
          refine ⟨prev, type, rfl, ?_⟩
          simp only [createNode_ptr, hcreate, bind, Except.bind, pure, Except.pure]

theorem pushContext_effect (b : CriticalBlock) (cpu : ℕ) (type : CriticalEdgeType) :
    Effect Hop b (b.pushContext cpu type) := by
  refine effect_of_refers rfl ?_
  rintro n (hn | ⟨cpu', context, hmem, hnode⟩)
  · exact .inl hn
  · right
    by_cases hcpu : cpu' = cpu
    · subst hcpu
      simp only [pushContext, update_self, List.mem_cons] at hmem
      rcases hmem with rfl | hmem
      · cases hnode
      · exact ⟨cpu', context, hmem, hnode⟩
    · simp only [pushContext, update_of_ne hcpu] at hmem
      exact ⟨cpu', context, hmem, hnode⟩

theorem popContext_effect (b : CriticalBlock) (cpu : ℕ) (type : CriticalEdgeType) :
    Effect Hop b (b.popContext cpu type) := by
  unfold popContext
  split
  · exact effect_of_refers rfl fun _ => id
  · next top rest hstack =>
      split
      · exact effect_of_refers rfl fun _ => id
      · refine effect_of_refers rfl ?_
        rintro n (hn | ⟨cpu', context, hmem, hnode⟩)
        · exact .inl hn
        · right
          refine ⟨cpu', context, ?_, hnode⟩
          by_cases hcpu : cpu' = cpu
          · subst hcpu
            simp only [update_self] at hmem
            rw [hstack]
            exact List.mem_cons_of_mem _ hmem
          · simpa only [update_of_ne hcpu] using hmem

/-- The pointer moves from `networkNodes` to the context of the interrupt. -/
theorem onInetSockLocalIn_effect (b : CriticalBlock) (cpu : ℕ) (key : PacketKey) :
    Effect Hop b (b.onInetSockLocalIn cpu key) := by
  unfold onInetSockLocalIn
  split
  · exact effect_of_refers rfl fun _ => id
  · next node hnode =>
      split
      · exact effect_of_refers rfl fun _ => id
      · next top rest hstack =>
          refine effect_of_refers rfl ?_
          rintro n (⟨key', hn⟩ | ⟨cpu', context, hmem, hcontext⟩)
          · left
            by_cases hkey : key' = key
            · subst hkey
              simp at hn
            · exact ⟨key', by simpa only [update_of_ne hkey] using hn⟩
          · by_cases hcpu : cpu' = cpu
            · subst hcpu
              simp only [update_self, List.mem_cons] at hmem
              rcases hmem with rfl | hmem
              · obtain rfl := Option.some.inj hcontext
                exact .inl ⟨key, hnode⟩
              · exact .inr ⟨cpu', context, hstack ▸ List.mem_cons_of_mem _ hmem, hcontext⟩
            · exact .inr ⟨cpu', context, by simpa only [update_of_ne hcpu] using hmem, hcontext⟩

theorem onThreadName_effect (b : CriticalBlock) (tid : ℕ) (name : Option Bytes) :
    Effect Hop b (b.onThreadName tid name) := by
  unfold onThreadName
  split
  · exact effect_of_refers rfl fun _ => id
  · split
    · exact effect_of_refers rfl fun _ => id
    · split <;> exact effect_of_refers rfl fun _ => id

theorem onInetSockLocalOut_effect {b : CriticalBlock} (ho : b.graph.Owned) (cpu tid : ℕ)
    (key : PacketKey) :
    ∃ b', b.onInetSockLocalOut cpu tid key = .ok b' ∧ Effect Hop b b' := by
  unfold onInetSockLocalOut
  split
  · exact ⟨b, rfl, effect_of_refers rfl fun _ => id⟩
  rcases cutThread_cases ho tid with hcut | ⟨prev, type, hlast, hcut⟩
  · rw [hcut]
    exact ⟨b, rfl, effect_of_refers rfl fun _ => id⟩
  have hprev := label_of_getLastNodeForThread ho hlast
  have ho₁ := ho.extend type prev tid
  have hsource := (fresh_extend ho hprev type tid).createNode ho₁ kNetworkThread
  have hnetwork := fresh_createNode (b.graph.extend type prev tid) kNetworkThread
  have hgrows : Grows Hop b.graph ((b.graph.extend type prev tid).createNode kNetworkThread).1 :=
    (Grows.refl.cut type hlast).node kNetworkThread
  rw [hcut]
  simp only [bind, Except.bind, createNode_ptr, createVerticalEdge_fresh hsource hnetwork]
  refine ⟨_, rfl, ⟨hgrows.join (by simp) hsource hnetwork, ?_⟩⟩
  rintro n (⟨key', hn⟩ | hn)
  · by_cases hkey : key' = key
    · subst hkey
      simp only [update_self] at hn
      obtain rfl := Option.some.inj hn
      right
      rw [label_withEdge]
      exact hnetwork.label
    · exact .inl (.inl ⟨key', by simpa only [update_of_ne hkey] using hn⟩)
  · exact .inl (.inr hn)

theorem onTTWUBetweenThreads_effect {b : CriticalBlock} (ho : b.graph.Owned)
    (sourceTid targetTid : ℕ) :
    ∃ b', b.onTTWUBetweenThreads sourceTid targetTid = .ok b' ∧ Effect Hop b b' := by
  unfold onTTWUBetweenThreads
  -- The disk request leaves the graph and the pointers alone.
  generalize hdisk : (if sourceTid ∈ b.diskThreads then b.addInterval targetTid else b) = b₀
  have hgraph : b₀.graph = b.graph := by
    rw [← hdisk]
    split <;> simp
  have hcontext : b₀.context = b.context := by
    rw [← hdisk]
    split <;> simp
  have hnodes : b₀.networkNodes = b.networkNodes := by
    rw [← hdisk]
    split <;> simp
  have ho₀ : b₀.graph.Owned := hgraph ▸ ho
  simp only
  rcases cutThread_cases ho₀ sourceTid with hcut | ⟨prev, type, hlast, hcut⟩
  · rw [hcut]
    exact ⟨b₀, rfl, effect_of_grows (hgraph ▸ .refl) hcontext hnodes⟩
  have hprev := label_of_getLastNodeForThread ho₀ hlast
  have ho₁ := ho₀.extend type prev sourceTid
  have hgrows₁ : Grows Hop b.graph (b₀.graph.extend type prev sourceTid) := by
    rw [← hgraph]
    exact Grows.refl.cut type hlast
  rw [hcut]
  simp only [bind, Except.bind]
  rcases cutThread_cases (b := { b₀ with graph := b₀.graph.extend type prev sourceTid }) ho₁
    targetTid with hcut' | ⟨prev', type', hlast', hcut'⟩
  · rw [hcut']
    exact ⟨_, rfl, effect_of_grows hgrows₁ hcontext hnodes⟩
  have hprev' := label_of_getLastNodeForThread ho₁ hlast'
  have hsource := (fresh_extend ho₀ hprev type sourceTid).extend ho₁ hprev' type' targetTid
  have htarget := fresh_extend ho₁ hprev' type' targetTid
  rw [hcut']
  simp only [createVerticalEdge_fresh hsource htarget]
  exact ⟨_, rfl, effect_of_grows ((hgrows₁.cut type' hlast').join (by simp) hsource htarget)
    hcontext hnodes⟩

theorem wakeupFromNetwork_effect {b : CriticalBlock} (ho : b.graph.Owned) {node ts : ℕ}
    (hnode : b.graph.label node = some (ts, kNetworkThread)) (hhop : Hop b.graph node)
    (targetTid : ℕ) :
    ∃ b', b.wakeupFromNetwork node targetTid = .ok b' ∧ Effect Hop b b' := by
  have hgrows : Grows Hop b.graph (b.graph.extend .run node kNetworkThread) :=
    Grows.refl.hop hnode hhop
  have ho₁ := ho.extend .run node kNetworkThread
  unfold wakeupFromNetwork
  simp only [createNode_ptr, createHorizontalEdge_createNode .run kNetworkThread ho hnode, bind,
    Except.bind]
  rcases cutThread_cases (b := { b with graph := b.graph.extend .run node kNetworkThread }) ho₁
    targetTid with hcut | ⟨prev, type, hlast, hcut⟩
  · rw [hcut]
    exact ⟨_, rfl, effect_of_grows hgrows rfl rfl⟩
  have hprev := label_of_getLastNodeForThread ho₁ hlast
  have hnetwork := (fresh_extend ho hnode .run kNetworkThread).extend ho₁ hprev type targetTid
  have htarget := fresh_extend ho₁ hprev type targetTid
  rw [hcut]
  simp only [createVerticalEdge_fresh hnetwork htarget]
  exact ⟨_, rfl, effect_of_grows ((hgrows.cut type hlast).join (by simp) hnetwork htarget) rfl rfl⟩

theorem onThreadStatus_effect {b : CriticalBlock} (ho : b.graph.Owned) (tid : ℕ)
    (status : Option ThreadStatus) :
    ∃ b', b.onThreadStatus tid status = .ok b' ∧ Effect Hop b b' := by
  unfold onThreadStatus
  split
  · exact ⟨b, rfl, effect_of_refers rfl fun _ => id⟩
  cases hlast : b.graph.getLastNodeForThread tid with
  | none => exact ⟨_, rfl, effect_of_grows (Grows.refl.node tid) rfl rfl⟩
  | some prev =>
      cases b.lastEdgeTypePerThread tid with
      | none => exact ⟨_, rfl, effect_of_grows (Grows.refl.node tid) rfl rfl⟩
      | some type =>
          have hcreate := createHorizontalEdge_createNode type tid ho
            (label_of_getLastNodeForThread ho hlast)
          simp only [createNode_ptr, hcreate, bind, Except.bind]
          exact ⟨_, rfl, effect_of_grows (Grows.refl.cut type hlast) rfl rfl⟩

/-- A wake-up through the network needs its node; all other events go through. -/
theorem onEvent_effect (Hop : CriticalGraph → ℕ → Prop) {b : CriticalBlock} (ho : b.graph.Owned)
    (kInvalidThread : ℕ)
    {event : Event} (hnetwork : ∀ node, b.networkNode event = some node →
      (∃ ts, b.graph.label node = some (ts, kNetworkThread)) ∧ Hop b.graph node) :
    ∃ b', b.onEvent kInvalidThread event = .ok b' ∧ Effect Hop b b' := by
  cases event with
  | ttwu cpu sourceTid targetTid =>
      simp only [onEvent, onTTWU]
      cases hstack : b.context cpu with
      | nil =>
          simp only
          split
          · exact onTTWUBetweenThreads_effect ho sourceTid targetTid
          · exact ⟨b, rfl, effect_of_refers rfl fun _ => id⟩
      | cons top rest =>
          simp only [onWakeupFromInterrupt]
          split
          · exact ⟨b, rfl, effect_of_refers rfl fun _ => id⟩
          · next hblocked =>
              cases hnode : top.node with
              -- in an interrupt of the network, this is the only event that asks for the node
              | some node =>
                  obtain ⟨⟨ts, hlabel⟩, hhop⟩ := hnetwork node
                    (by simp [networkNode, not_not.mp hblocked, hstack, hnode])
                  exact wakeupFromNetwork_effect ho hlabel hhop targetTid
              | none =>
                  refine ⟨_, rfl, effect_of_grows ?_ ?_ ?_⟩
                  · simp only [apply_ite CriticalBlock.graph, graph_addInterval, ite_self]
                    exact .refl
                  · simp only [apply_ite CriticalBlock.context, context_addInterval, ite_self]
                  · simp only [apply_ite CriticalBlock.networkNodes, networkNodes_addInterval,
                      ite_self]
  | softIrqEntry cpu vec => exact ⟨_, rfl, pushContext_effect b cpu _⟩
  | softIrqExit cpu vec => exact ⟨_, rfl, popContext_effect b cpu _⟩
  | irqHandlerEntry cpu irq => exact ⟨_, rfl, pushContext_effect b cpu _⟩
  | irqHandlerExit cpu irq => exact ⟨_, rfl, popContext_effect b cpu _⟩
  | hrtimerExpireEntry cpu => exact ⟨_, rfl, pushContext_effect b cpu _⟩
  | hrtimerExpireExit cpu => exact ⟨_, rfl, popContext_effect b cpu _⟩
  | inetSockLocalIn cpu key => exact ⟨_, rfl, onInetSockLocalIn_effect b cpu key⟩
  | inetSockLocalOut cpu tid key => exact onInetSockLocalOut_effect ho cpu tid key
  | threadStatus tid status => exact onThreadStatus_effect ho tid status
  | threadName tid name => exact ⟨_, rfl, onThreadName_effect b tid name⟩

/-- Without its node, the handler writes through a dangling pointer. -/
theorem label_of_onEvent_ok {b b' : CriticalBlock} {kInvalidThread : ℕ} {event : Event}
    {node : ℕ} (hnode : b.networkNode event = some node) (hlt : node < b.graph.nextNode)
    (h : b.onEvent kInvalidThread event = .ok b') : ∃ label, b.graph.label node = some label := by
  cases event with
  | ttwu cpu sourceTid targetTid =>
      simp only [networkNode] at hnode
      split at hnode
      · next hblocked =>
          obtain ⟨top, htop, hcontext⟩ := Option.bind_eq_some_iff.mp hnode
          obtain ⟨rest, hstack⟩ : ∃ rest, b.context cpu = top :: rest :=
            ⟨_, List.eq_cons_of_mem_head? htop⟩
          simp only [onEvent, onTTWU, hstack, onWakeupFromInterrupt, hblocked, ne_eq,
            not_true_eq_false, if_false, hcontext, wakeupFromNetwork] at h
          obtain ⟨⟨g, id⟩, hcreate, -⟩ := Runs.bind_eq_ok.mp h
          obtain ⟨⟨label, hlabel⟩, -, -⟩ := createEdge_ok hcreate
          rw [label_createNode, update_of_ne hlt.ne] at hlabel
          exact ⟨label, hlabel⟩
      · cases hnode
  | _ => cases hnode

end CriticalBlock

end TibeeCompare.CriticalBlocks
