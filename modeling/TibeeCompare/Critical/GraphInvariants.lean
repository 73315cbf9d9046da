import TibeeCompare.Critical.CriticalGraph
import TibeeCompare.Lib.SortedLists
import Mathlib.Data.List.Nodup
import Mathlib.Order.Basic
import Mathlib.Algebra.Order.Group.Nat

/-!
What the operations of `CriticalGraph` keep.

Every operation is described through three views of the graph: the `label` of a
node (its timestamp and thread, fixed at creation), its slots, and the stored
edges. `Owned` says that the vectors own the nodes and list them in creation
order. `SlotsSound` says that an id found in a slot is a stored edge that has the
node as its endpoint, and `SlotsExact` that, in addition, both slots of every
stored edge hold its id. The two slot invariants take a set of stale slots: those
of the nodes that a sweep of `cleanup` has already been through.
-/

namespace TibeeCompare.Critical

open Function

namespace CriticalEdgePosition

@[simp] theorem opposite_opposite (p : CriticalEdgePosition) : p.opposite.opposite = p := by
  cases p <;> rfl

@[simp] theorem opposite_ne (p : CriticalEdgePosition) : p.opposite ≠ p := by
  cases p <;> decide

@[simp] theorem ne_opposite (p : CriticalEdgePosition) : p ≠ p.opposite := by
  cases p <;> decide

end CriticalEdgePosition

/-- The endpoint of an edge whose slot is in the given position. -/
def CriticalEdge.endpoint (edge : CriticalEdge) : CriticalEdgePosition → ℕ
  | .outVertical | .outHorizontal => edge.fromNode
  | .inVertical | .inHorizontal => edge.toNode

namespace CriticalGraph

/-- The timestamp and the thread of an allocated node. -/
def label (g : CriticalGraph) (n : ℕ) : Option (ℕ × ℕ) :=
  (g.heap n).map fun node => (node.ts, node.tid)

theorem label_of_heap {g : CriticalGraph} {n : ℕ} {node : CriticalNode}
    (h : g.heap n = some node) : g.label n = some (node.ts, node.tid) := by
  simp [label, h]

theorem slot_of_heap {g : CriticalGraph} {n : ℕ} {node : CriticalNode}
    (h : g.heap n = some node) (p : CriticalEdgePosition) : g.slot n p = node.edge p := by
  simp [slot, h]

theorem tsOf_of_heap {g : CriticalGraph} {n : ℕ} {node : CriticalNode}
    (h : g.heap n = some node) : g.tsOf n = node.ts := by
  simp [tsOf, h]

theorem deref_of_heap {g : CriticalGraph} {n : ℕ} {node : CriticalNode}
    (h : g.heap n = some node) : g.deref n = .ok node := by
  simp [deref, h]

theorem heap_of_label {g : CriticalGraph} {n : ℕ} {ts : ℕ} {tid : ℕ}
    (h : g.label n = some (ts, tid)) : ∃ node, g.heap n = some node ∧ node.ts = ts ∧
      node.tid = tid := by
  obtain ⟨node, hnode, heq⟩ := Option.map_eq_some_iff.mp h
  exact ⟨node, hnode, (Prod.mk.inj heq).1, (Prod.mk.inj heq).2⟩

theorem tsOf_of_label {g : CriticalGraph} {n : ℕ} {ts : ℕ} {tid : ℕ}
    (h : g.label n = some (ts, tid)) : g.tsOf n = ts := by
  obtain ⟨node, hnode, rfl, rfl⟩ := heap_of_label h
  exact tsOf_of_heap hnode

theorem label_of_slot {g : CriticalGraph} {n : ℕ} {p : CriticalEdgePosition}
    {e : ℕ} (h : g.slot n p = some e) : ∃ label, g.label n = some label := by
  obtain ⟨node, hnode, -⟩ := Option.bind_eq_some_iff.mp h
  exact ⟨_, label_of_heap hnode⟩

/-! ### The operations, as functions of the three views -/

/-- The graph after a write to a slot, when the node is allocated. -/
def writeSlot (g : CriticalGraph) (n : ℕ) (p : CriticalEdgePosition)
    (edge : Option ℕ) : CriticalGraph :=
  { g with heap := update g.heap n ((g.heap n).map (·.setEdge p edge)) }

theorem setEdge_of_label {g : CriticalGraph} {n : ℕ} {label : ℕ × ℕ}
    (h : g.label n = some label) (p : CriticalEdgePosition) (edge : Option ℕ) :
    g.setEdge n p edge = .ok (g.writeSlot n p edge) := by
  obtain ⟨node, hnode, -⟩ := heap_of_label h
  simp [setEdge, deref, hnode, writeSlot, bind, Except.bind, pure, Except.pure]

theorem setEdge_ok {g g' : CriticalGraph} {n : ℕ} {p : CriticalEdgePosition}
    {edge : Option ℕ} (h : g.setEdge n p edge = .ok g') :
    ∃ label, g.label n = some label ∧ g' = g.writeSlot n p edge := by
  cases hnode : g.heap n with
  | none => simp [setEdge, deref, hnode, bind, Except.bind] at h
  | some node =>
      have hlabel := label_of_heap hnode
      rw [setEdge_of_label hlabel] at h
      exact ⟨_, hlabel, (Except.ok.inj h).symm⟩

@[simp] theorem label_writeSlot (g : CriticalGraph) (n : ℕ) (p : CriticalEdgePosition)
    (edge : Option ℕ) : (g.writeSlot n p edge).label = g.label := by
  funext m
  by_cases hm : m = n
  · subst hm
    cases hnode : g.heap m <;> simp [label, writeSlot, hnode, CriticalNode.setEdge]
  · simp [label, writeSlot, update_of_ne hm]

theorem slot_writeSlot (g : CriticalGraph) (n : ℕ) (p : CriticalEdgePosition)
    (edge : Option ℕ) (m : ℕ) (q : CriticalEdgePosition) :
    (g.writeSlot n p edge).slot m q =
      if m = n ∧ q = p ∧ (g.label n).isSome then edge else g.slot m q := by
  by_cases hm : m = n
  · subst hm
    cases hnode : g.heap m with
    | none => simp [slot, writeSlot, label, hnode]
    | some node =>
        by_cases hq : q = p
        · subst hq
          simp [slot, writeSlot, label, hnode, CriticalNode.setEdge]
        · simp [slot, writeSlot, hnode, CriticalNode.setEdge, hq]
  · simp [slot, writeSlot, hm]

@[simp] theorem edges_writeSlot (g : CriticalGraph) (n : ℕ) (p : CriticalEdgePosition)
    (edge : Option ℕ) : (g.writeSlot n p edge).edges = g.edges := rfl

@[simp] theorem nodesOf_writeSlot (g : CriticalGraph) (n : ℕ) (p : CriticalEdgePosition)
    (edge : Option ℕ) : (g.writeSlot n p edge).nodesOf = g.nodesOf := rfl

@[simp] theorem label_setTimestamp (g : CriticalGraph) (ts : ℕ) :
    (g.setTimestamp ts).label = g.label := rfl

@[simp] theorem slot_setTimestamp (g : CriticalGraph) (ts : ℕ) :
    (g.setTimestamp ts).slot = g.slot := rfl

@[simp] theorem createNode_ptr (g : CriticalGraph) (tid : ℕ) :
    (g.createNode tid).2 = g.nextNode := rfl

@[simp] theorem label_createNode (g : CriticalGraph) (tid : ℕ) :
    (g.createNode tid).1.label = update g.label g.nextNode (some (g.ts, tid)) := by
  funext n
  by_cases hn : n = g.nextNode
  · subst hn
    simp [label, createNode]
  · simp [label, createNode, hn]

theorem slot_createNode (g : CriticalGraph) (tid : ℕ) (n : ℕ)
    (p : CriticalEdgePosition) :
    (g.createNode tid).1.slot n p = if n = g.nextNode then none else g.slot n p := by
  by_cases hn : n = g.nextNode
  · subst hn
    simp [slot, createNode]
  · simp [slot, createNode, hn]

@[simp] theorem edges_createNode (g : CriticalGraph) (tid : ℕ) :
    (g.createNode tid).1.edges = g.edges := rfl

@[simp] theorem nextEdgeId_createNode (g : CriticalGraph) (tid : ℕ) :
    (g.createNode tid).1.nextEdgeId = g.nextEdgeId := rfl

@[simp] theorem nodesOf_createNode (g : CriticalGraph) (tid : ℕ) :
    (g.createNode tid).1.nodesOf =
      update g.nodesOf tid (g.nodesOf tid ++ [g.nextNode]) := rfl

@[simp] theorem nextNode_createNode (g : CriticalGraph) (tid : ℕ) :
    (g.createNode tid).1.nextNode = g.nextNode + 1 := rfl

@[simp] theorem ts_createNode (g : CriticalGraph) (tid : ℕ) :
    (g.createNode tid).1.ts = g.ts := rfl

theorem mem_tids_createNode {g : CriticalGraph} {tid t : ℕ} :
    t ∈ (g.createNode tid).1.tids ↔ t = tid ∨ t ∈ g.tids := by
  unfold createNode
  split
  · exact ⟨.inr, by rintro (rfl | h) <;> assumption⟩
  · simp [or_comm]

@[simp] theorem label_storeEdge (g : CriticalGraph) (edge : CriticalEdge) :
    (g.storeEdge edge).label = g.label := rfl

@[simp] theorem slot_storeEdge (g : CriticalGraph) (edge : CriticalEdge) :
    (g.storeEdge edge).slot = g.slot := rfl

/-- The graph after an edge is created between two allocated nodes. -/
def withEdge (g : CriticalGraph) (edge : CriticalEdge) (out : CriticalEdgePosition) :
    CriticalGraph :=
  ((g.storeEdge edge).writeSlot edge.fromNode out (some g.nextEdgeId)).writeSlot edge.toNode
    out.opposite (some g.nextEdgeId)

theorem createEdge_ok {g g' : CriticalGraph} {edge : CriticalEdge} {out : CriticalEdgePosition}
    {id : ℕ} (h : g.createEdge edge out = .ok (g', id)) :
    (∃ label, g.label edge.fromNode = some label) ∧ (∃ label, g.label edge.toNode = some label) ∧
      g' = g.withEdge edge out := by
  unfold createEdge at h
  simp only [bind, Except.bind] at h
  split at h
  · cases h
  · next g₁ h₁ =>
      obtain ⟨label, hfrom, rfl⟩ := setEdge_ok h₁
      split at h
      · cases h
      · next g₂ h₂ =>
          obtain ⟨label', hto, rfl⟩ := setEdge_ok h₂
          rw [label_writeSlot] at hto
          exact ⟨⟨label, hfrom⟩, ⟨label', hto⟩, (Prod.mk.inj (Except.ok.inj h)).1.symm⟩

theorem createEdge_of_label {g : CriticalGraph} {edge : CriticalEdge}
    {out : CriticalEdgePosition} {label label' : ℕ × ℕ}
    (hfrom : g.label edge.fromNode = some label) (hto : g.label edge.toNode = some label') :
    g.createEdge edge out = .ok (g.withEdge edge out, g.nextEdgeId) := by
  unfold createEdge
  simp only [bind, Except.bind]
  rw [setEdge_of_label (g := g.storeEdge edge) hfrom]
  simp only
  rw [setEdge_of_label (by rw [label_writeSlot]; exact hto : _ = some label')]
  rfl

@[simp] theorem label_withEdge (g : CriticalGraph) (edge : CriticalEdge)
    (out : CriticalEdgePosition) : (g.withEdge edge out).label = g.label := by
  simp [withEdge]

@[simp] theorem edges_withEdge (g : CriticalGraph) (edge : CriticalEdge)
    (out : CriticalEdgePosition) :
    (g.withEdge edge out).edges = update g.edges g.nextEdgeId (some edge) := rfl

@[simp] theorem nextEdgeId_withEdge (g : CriticalGraph) (edge : CriticalEdge)
    (out : CriticalEdgePosition) : (g.withEdge edge out).nextEdgeId = g.nextEdgeId + 1 := rfl

@[simp] theorem nodesOf_withEdge (g : CriticalGraph) (edge : CriticalEdge)
    (out : CriticalEdgePosition) : (g.withEdge edge out).nodesOf = g.nodesOf := rfl

@[simp] theorem nextNode_withEdge (g : CriticalGraph) (edge : CriticalEdge)
    (out : CriticalEdgePosition) : (g.withEdge edge out).nextNode = g.nextNode := rfl

@[simp] theorem tids_withEdge (g : CriticalGraph) (edge : CriticalEdge)
    (out : CriticalEdgePosition) : (g.withEdge edge out).tids = g.tids := rfl

@[simp] theorem ts_withEdge (g : CriticalGraph) (edge : CriticalEdge)
    (out : CriticalEdgePosition) : (g.withEdge edge out).ts = g.ts := rfl

theorem slot_withEdge {g : CriticalGraph} (edge : CriticalEdge) {out : CriticalEdgePosition}
    {label label' : ℕ × ℕ} (hfrom : g.label edge.fromNode = some label)
    (hto : g.label edge.toNode = some label') (n : ℕ) (p : CriticalEdgePosition) :
    (g.withEdge edge out).slot n p =
      if (n = edge.toNode ∧ p = out.opposite) ∨ (n = edge.fromNode ∧ p = out) then
        some g.nextEdgeId
      else g.slot n p := by
  have hfrom' : (g.label edge.fromNode).isSome := by simp [hfrom]
  have hto' : (g.label edge.toNode).isSome := by simp [hto]
  unfold withEdge
  rw [slot_writeSlot, slot_writeSlot, label_writeSlot]
  simp only [label_storeEdge, slot_storeEdge, hfrom', hto', and_true]
  split
  · next h => simp [h]
  · next h =>
      split
      · next h' => simp [h']
      · next h' => simp [h, h']

/-! ### The vectors own the nodes -/

structure Owned (g : CriticalGraph) : Prop where
  mem_nodesOf : ∀ {t n}, n ∈ g.nodesOf t ↔ ∃ ts, g.label n = some (ts, t)
  lt_next : ∀ {n label}, g.label n = some label → n < g.nextNode
  /-- Each vector is in creation order. -/
  sorted : ∀ t, (g.nodesOf t).Pairwise (· < ·)
  keys : ∀ {t n}, n ∈ g.nodesOf t → t ∈ g.tids

theorem owned_empty : Owned empty where
  mem_nodesOf := by simp [empty, label]
  lt_next := by simp [empty, label]
  sorted := by simp [empty]
  keys := by simp [empty]

theorem Owned.label_of_mem {g : CriticalGraph} (h : g.Owned) {t : ℕ} {n : ℕ}
    (hn : n ∈ g.nodesOf t) : g.label n = some (g.tsOf n, t) := by
  obtain ⟨ts, hts⟩ := h.mem_nodesOf.mp hn
  rw [hts, tsOf_of_label hts]

theorem Owned.label_nextNode {g : CriticalGraph} (h : g.Owned) : g.label g.nextNode = none := by
  cases hl : g.label g.nextNode with
  | none => rfl
  | some label => exact absurd (h.lt_next hl) (lt_irrefl _)

theorem Owned.setTimestamp {g : CriticalGraph} (h : g.Owned) (ts : ℕ) :
    (g.setTimestamp ts).Owned :=
  ⟨h.mem_nodesOf, h.lt_next, h.sorted, h.keys⟩

theorem Owned.createNode {g : CriticalGraph} (h : g.Owned) (tid : ℕ) :
    (g.createNode tid).1.Owned where
  mem_nodesOf := by
    intro t n
    rw [nodesOf_createNode, label_createNode]
    by_cases hn : n = g.nextNode
    · subst hn
      have hnot : ∀ t, g.nextNode ∉ g.nodesOf t := by
        intro t hmem
        have hlabel := h.label_of_mem hmem
        rw [h.label_nextNode] at hlabel
        cases hlabel
      by_cases ht : t = tid
      · subst ht
        simp
      · simp [update_of_ne ht, hnot t, Ne.symm ht]
    · by_cases ht : t = tid
      · subst ht
        simp [hn, h.mem_nodesOf]
      · simp [update_of_ne ht, update_of_ne hn, h.mem_nodesOf]
  lt_next := by
    intro n label hlabel
    rw [label_createNode] at hlabel
    rw [nextNode_createNode]
    by_cases hn : n = g.nextNode
    · omega
    · rw [update_of_ne hn] at hlabel
      exact Nat.lt_succ_of_lt (h.lt_next hlabel)
  sorted := by
    intro t
    rw [nodesOf_createNode]
    by_cases ht : t = tid
    · subst ht
      rw [update_self, List.pairwise_append]
      refine ⟨h.sorted t, List.pairwise_singleton .., ?_⟩
      intro n hn m hm
      rw [List.mem_singleton.mp hm]
      exact h.lt_next (h.label_of_mem hn)
    · rw [update_of_ne ht]
      exact h.sorted t
  keys := by
    intro t n hn
    rw [mem_tids_createNode]
    rw [nodesOf_createNode] at hn
    by_cases ht : t = tid
    · exact .inl ht
    · rw [update_of_ne ht] at hn
      exact .inr (h.keys hn)

theorem Owned.withEdge {g : CriticalGraph} (h : g.Owned) (edge : CriticalEdge)
    (out : CriticalEdgePosition) : (g.withEdge edge out).Owned where
  mem_nodesOf := by
    intro t n
    rw [label_withEdge]
    exact h.mem_nodesOf
  lt_next := by
    intro n label hlabel
    rw [label_withEdge] at hlabel
    exact h.lt_next hlabel
  sorted := h.sorted
  keys := h.keys

/-- The last node of a thread is the one created last. -/
theorem Owned.le_last {g : CriticalGraph} (h : g.Owned) {tid : ℕ} {last n : ℕ}
    (hlast : g.getLastNodeForThread tid = some last) (hn : n ∈ g.nodesOf tid) : n ≤ last :=
  SortedLists.le_getLast? (h.sorted tid) hlast hn

theorem mem_of_getLastNodeForThread {g : CriticalGraph} {tid : ℕ} {last : ℕ}
    (h : g.getLastNodeForThread tid = some last) : last ∈ g.nodesOf tid :=
  List.mem_of_getLast? h

/-! ### The slots and the stored edges agree -/

end CriticalGraph

/-- The positions of outgoing edges. -/
def CriticalEdgePosition.IsOut (p : CriticalEdgePosition) : Prop :=
  p = .outVertical ∨ p = .outHorizontal

theorem CriticalEdge.endpoint_out (edge : CriticalEdge) {p : CriticalEdgePosition}
    (hp : p.IsOut) : edge.endpoint p = edge.fromNode ∧ edge.endpoint p.opposite = edge.toNode := by
  rcases hp with rfl | rfl <;> exact ⟨rfl, rfl⟩

/-- Slots of nodes that a sweep has already been through. -/
abbrev StaleSlots := ℕ → CriticalEdgePosition → Prop

/-- Outside of a sweep, no slot is stale. -/
abbrev noStale : StaleSlots := fun _ _ => False

namespace CriticalGraph

structure SlotsSound (stale : StaleSlots) (g : CriticalGraph) : Prop where
  stored : ∀ {n p e}, ¬ stale n p → g.slot n p = some e →
    ∃ edge, g.edges e = some edge ∧ edge.endpoint p = n
  sameAxis : ∀ {n p m q e}, ¬ stale n p → ¬ stale m q → g.slot n p = some e →
    g.slot m q = some e → q = p ∨ q = p.opposite
  fresh : ∀ {e edge}, g.edges e = some edge → e < g.nextEdgeId

/-- The two slots of a stored edge hold its id. -/
def Held (stale : StaleSlots) (g : CriticalGraph) (e : ℕ) (edge : CriticalEdge) :
    Prop :=
  ∃ out : CriticalEdgePosition, out.IsOut ∧
    ¬ stale edge.fromNode out ∧ ¬ stale edge.toNode out.opposite ∧
      g.slot edge.fromNode out = some e ∧ g.slot edge.toNode out.opposite = some e

structure SlotsExact (stale : StaleSlots) (g : CriticalGraph) : Prop
    extends SlotsSound stale g where
  held : ∀ {e edge}, g.edges e = some edge → g.Held stale e edge

/-- A node with an id in a slot is that endpoint of the edge. -/
theorem SlotsSound.endpoint_eq {stale : StaleSlots} {g : CriticalGraph} (h : SlotsSound stale g)
    {n : ℕ} {p : CriticalEdgePosition} (hn : ¬ stale n p) {e : ℕ} (hslot : g.slot n p = some e)
    {edge : CriticalEdge} (hedge : g.edges e = some edge) : edge.endpoint p = n := by
  obtain ⟨edge', hedge', hend⟩ := h.stored hn hslot
  rw [hedge] at hedge'
  obtain rfl := Option.some.inj hedge'
  exact hend

theorem SlotsSound.lt_nextEdgeId {g : CriticalGraph} (h : SlotsSound noStale g) {n : ℕ}
    {p : CriticalEdgePosition} {e : ℕ} (hslot : g.slot n p = some e) : e < g.nextEdgeId := by
  obtain ⟨edge, hedge, -⟩ := h.stored not_false hslot
  exact h.fresh hedge

theorem slotsExact_empty : SlotsExact noStale empty where
  stored := by simp [empty, slot]
  sameAxis := by simp [empty, slot]
  fresh := by simp [empty]
  held := by simp [empty]

theorem slot_of_slot_createNode {g : CriticalGraph} {tid : ℕ} {n : ℕ}
    {p : CriticalEdgePosition} {e : ℕ}
    (h : (g.createNode tid).1.slot n p = some e) : g.slot n p = some e := by
  rw [slot_createNode] at h
  split at h
  · cases h
  · exact h

theorem slot_createNode_of_slot {g : CriticalGraph} (hg : g.Owned) {tid : ℕ} {n : ℕ}
    {p : CriticalEdgePosition} {e : ℕ} (h : g.slot n p = some e) :
    (g.createNode tid).1.slot n p = some e := by
  have hn : n ≠ g.nextNode := by
    obtain ⟨label, hlabel⟩ := label_of_slot h
    exact (hg.lt_next hlabel).ne
  rw [slot_createNode, if_neg hn, h]

theorem SlotsSound.createNode {g : CriticalGraph} (h : SlotsSound noStale g) (tid : ℕ) :
    SlotsSound noStale (g.createNode tid).1 where
  stored hn hslot := h.stored hn (slot_of_slot_createNode hslot)
  sameAxis hn hm hslot hslot' :=
    h.sameAxis hn hm (slot_of_slot_createNode hslot) (slot_of_slot_createNode hslot')
  fresh := h.fresh

theorem SlotsExact.createNode {g : CriticalGraph} (h : SlotsExact noStale g) (hg : g.Owned)
    (tid : ℕ) : SlotsExact noStale (g.createNode tid).1 where
  toSlotsSound := h.toSlotsSound.createNode tid
  held hedge := by
    obtain ⟨out, hout, hfrom, hto, hslot, hslot'⟩ := h.held hedge
    exact ⟨out, hout, hfrom, hto, slot_createNode_of_slot hg hslot,
      slot_createNode_of_slot hg hslot'⟩

section withEdge

variable {g : CriticalGraph} {edge : CriticalEdge} {out : CriticalEdgePosition}
  {label label' : ℕ × ℕ}

/-- Storing under the next id leaves the stored edges alone. -/
theorem edges_withEdge_of_lt {e : ℕ} (he : e < g.nextEdgeId) :
    (g.withEdge edge out).edges e = g.edges e := by
  rw [edges_withEdge, update_of_ne he.ne]

theorem SlotsSound.withEdge (h : SlotsSound noStale g) (edge : CriticalEdge) (hout : out.IsOut)
    (hfrom : g.label edge.fromNode = some label) (hto : g.label edge.toNode = some label') :
    SlotsSound noStale (g.withEdge edge out) := by
  obtain ⟨hep, hep'⟩ := edge.endpoint_out hout
  have hcases : ∀ {n p e}, (g.withEdge edge out).slot n p = some e →
      (e = g.nextEdgeId ∧ (p = out ∨ p = out.opposite) ∧ edge.endpoint p = n) ∨
        g.slot n p = some e := by
    intro n p e hslot
    rw [slot_withEdge edge hfrom hto] at hslot
    split at hslot
    · next hnew =>
        left
        refine ⟨(Option.some.inj hslot).symm, ?_⟩
        rcases hnew with ⟨rfl, rfl⟩ | ⟨rfl, rfl⟩
        · exact ⟨.inr rfl, hep'⟩
        · exact ⟨.inl rfl, hep⟩
    · exact .inr hslot
  refine ⟨?_, ?_, ?_⟩
  · intro n p e _ hslot
    rcases hcases hslot with ⟨rfl, -, hn⟩ | hold
    · exact ⟨edge, by simp, hn⟩
    · obtain ⟨edge', hedge', hn⟩ := h.stored not_false hold
      exact ⟨edge', by rw [edges_withEdge_of_lt (h.fresh hedge'), hedge'], hn⟩
  · intro n p m q e _ _ hslot hslot'
    rcases hcases hslot with ⟨rfl, hp, -⟩ | hold
    · rcases hcases hslot' with ⟨-, hq, -⟩ | hold'
      · rcases hp with rfl | rfl <;> rcases hq with rfl | rfl <;> simp
      · exact absurd (h.lt_nextEdgeId hold') (lt_irrefl _)
    · rcases hcases hslot' with ⟨rfl, -, -⟩ | hold'
      · exact absurd (h.lt_nextEdgeId hold) (lt_irrefl _)
      · exact h.sameAxis not_false not_false hold hold'
  · intro e edge' hedge'
    rw [edges_withEdge] at hedge'
    rw [nextEdgeId_withEdge]
    by_cases he : e = g.nextEdgeId
    · omega
    · rw [update_of_ne he] at hedge'
      exact Nat.lt_succ_of_lt (h.fresh hedge')

theorem SlotsExact.withEdge (h : SlotsExact noStale g) (edge : CriticalEdge) (hout : out.IsOut)
    (hfrom : g.label edge.fromNode = some label) (hto : g.label edge.toNode = some label')
    (hfree : g.slot edge.fromNode out = none) (hfree' : g.slot edge.toNode out.opposite = none) :
    SlotsExact noStale (g.withEdge edge out) where
  toSlotsSound := h.toSlotsSound.withEdge edge hout hfrom hto
  held := by
    intro e edge' hedge'
    by_cases he : e = g.nextEdgeId
    · subst he
      rw [edges_withEdge, update_self] at hedge'
      obtain rfl := Option.some.inj hedge'
      exact ⟨out, hout, not_false, not_false, by rw [slot_withEdge edge hfrom hto]; simp,
        by rw [slot_withEdge edge hfrom hto]; simp⟩
    · rw [edges_withEdge, update_of_ne he] at hedge'
      obtain ⟨out', hout', -, -, hslot, hslot'⟩ := h.held hedge'
      -- A slot that already holds an id is not one of the two that were free.
      have hkeep : ∀ {n p}, g.slot n p = some e → (g.withEdge edge out).slot n p = some e := by
        intro n p hslot
        rw [slot_withEdge edge hfrom hto, if_neg, hslot]
        rintro (⟨rfl, rfl⟩ | ⟨rfl, rfl⟩)
        · rw [hfree'] at hslot
          cases hslot
        · rw [hfree] at hslot
          cases hslot
      exact ⟨out', hout', not_false, not_false, hkeep hslot, hkeep hslot'⟩

end withEdge

end CriticalGraph

end TibeeCompare.Critical
