import TibeeCompare.CriticalBlocks.BlockRuns
import TibeeCompare.Critical.CallSteps

/-!
The graphs that the handlers build from the events of a trace, without cleanups.

All nodes are there, in the order of time; an edge leads to a node that was
created later, a wake-up takes no time, and a wait ends at the node that follows
on its thread. `Traced` collects these facts, which every elementary step keeps.
-/

namespace TibeeCompare.Critical

/-- The positions of horizontal edges. -/
def CriticalEdgePosition.IsHorizontal (p : CriticalEdgePosition) : Prop :=
  p = .outHorizontal ∨ p = .inHorizontal

namespace CriticalGraph

open Function

/-- An edge that is found in a slot in position `p` of one of its endpoints. -/
structure Fits (g : CriticalGraph) (p : CriticalEdgePosition) (edge : CriticalEdge)
    (ts t ts' t' : ℕ) : Prop where
  fromLabel : g.label edge.fromNode = some (ts, t)
  toLabel : g.label edge.toNode = some (ts', t')
  lt : edge.fromNode < edge.toNode
  level : ¬ p.IsHorizontal → ts = ts'
  sameThread : p.IsHorizontal → t = t'
  /-- A wait ends at the next node of its thread. -/
  next : p.IsHorizontal → edge.type.isBlocked → ∀ k ts'', edge.fromNode < k → k < edge.toNode →
    g.label k ≠ some (ts'', t)

/-- A graph that was built from the events of a trace. -/
structure Traced (g : CriticalGraph) : Prop where
  owned : g.Owned
  clocked : g.Clocked
  alive : ∀ n < g.nextNode, ∃ label, g.label n = some label
  sound : SlotsSound noStale g
  fits : ∀ {n p e edge}, g.slot n p = some e → g.edges e = some edge →
    ∃ ts t ts' t', g.Fits p edge ts t ts' t'

theorem traced_empty : empty.Traced where
  owned := owned_empty
  clocked := clocked_empty
  alive n hn := absurd hn (Nat.not_lt_zero n)
  sound := slotsExact_empty.toSlotsSound
  fits h := by cases h

theorem Traced.setTimestamp {g : CriticalGraph} (h : g.Traced) {ts : ℕ} (hle : g.ts ≤ ts) :
    (g.setTimestamp ts).Traced where
  owned := h.owned.setTimestamp ts
  clocked := h.clocked.setTimestamp hle
  alive := h.alive
  sound := ⟨h.sound.stored, h.sound.sameAxis, h.sound.fresh⟩
  fits hslot hedge := by
    obtain ⟨ts, t, ts', t', hfits⟩ := h.fits hslot hedge
    exact ⟨ts, t, ts', t', ⟨hfits.fromLabel, hfits.toLabel, hfits.lt, hfits.level,
      hfits.sameThread, hfits.next⟩⟩

section preservation

variable {g g' : CriticalGraph}

/-- A new node leaves the edges as they are: it comes after their endpoints. -/
theorem Fits.of_update (ho : g.Owned) {p : CriticalEdgePosition} {edge : CriticalEdge}
    {ts t ts' t' : ℕ} (h : g.Fits p edge ts t ts' t') {fresh : Option (ℕ × ℕ)}
    (hlabel : g'.label = update g.label g.nextNode fresh) : g'.Fits p edge ts t ts' t' where
  fromLabel := by rw [hlabel, update_of_ne (ho.lt_next h.fromLabel).ne, h.fromLabel]
  toLabel := by rw [hlabel, update_of_ne (ho.lt_next h.toLabel).ne, h.toLabel]
  lt := h.lt
  level := h.level
  sameThread := h.sameThread
  next hp hblocked k ts'' hfrom hto := by
    have hk := lt_trans hto (ho.lt_next h.toLabel)
    rw [hlabel, update_of_ne hk.ne]
    exact h.next hp hblocked k ts'' hfrom hto

theorem alive_of_update (h : ∀ n < g.nextNode, ∃ label, g.label n = some label)
    {label : ℕ × ℕ} (hlabel : g'.label = update g.label g.nextNode (some label)) :
    ∀ n < g.nextNode + 1, ∃ label, g'.label n = some label := by
  intro n hn
  rw [hlabel]
  by_cases heq : n = g.nextNode
  · subst heq
    exact ⟨label, update_self ..⟩
  · rw [update_of_ne heq]
    exact h n (by omega)

theorem Traced.createNode (h : g.Traced) (tid : ℕ) : (g.createNode tid).1.Traced where
  owned := h.owned.createNode tid
  clocked := h.clocked.of_update h.owned rfl (label_createNode ..)
  alive := alive_of_update h.alive (label_createNode ..)
  sound := h.sound.createNode tid
  fits hslot hedge := by
    obtain ⟨ts, t, ts', t', hfits⟩ := h.fits (slot_of_slot_createNode hslot) hedge
    exact ⟨ts, t, ts', t', hfits.of_update h.owned (label_createNode ..)⟩

/-- A thread is extended from one of its own nodes. When the new edge is a wait,
it starts at the last node. -/
theorem Traced.extend (h : g.Traced) {prev ts tid : ℕ} (hprev : g.label prev = some (ts, tid))
    (type : CriticalEdgeType) (hnext : type.isBlocked → ∀ k ∈ g.nodesOf tid, k ≤ prev) :
    (g.extend type prev tid).Traced where
  owned := h.owned.extend type prev tid
  clocked := h.clocked.of_update h.owned rfl (label_extend ..)
  alive := alive_of_update h.alive (label_extend ..)
  sound := by
    refine (h.sound.createNode tid).withEdge ⟨type, prev, g.nextNode⟩ (.inr rfl)
      (?_ : _ = some (ts, tid)) (?_ : _ = some (g.ts, tid))
    · rw [label_createNode, update_of_ne (h.owned.lt_next hprev).ne, hprev]
    · rw [label_createNode, update_self]
  fits := by
    intro n p e edge hslot hedge
    rw [slot_extend type tid h.owned hprev] at hslot
    rw [edges_extend] at hedge
    split at hslot
    · next hnew =>
        obtain rfl := Option.some.inj hslot
        rw [update_self] at hedge
        obtain rfl := Option.some.inj hedge
        have hp : p.IsHorizontal := by
          rcases hnew with ⟨-, rfl⟩ | ⟨-, rfl⟩
          · exact .inr rfl
          · exact .inl rfl
        have hlt := h.owned.lt_next hprev
        refine ⟨ts, tid, g.ts, tid, ⟨?_, ?_, hlt, fun hnot => absurd hp hnot, fun _ => rfl, ?_⟩⟩
        · rw [label_extend, update_of_ne hlt.ne, hprev]
        · rw [label_extend, update_self]
        · intro _ hblocked k ts'' hfrom hto
          rw [label_extend, update_of_ne (show k < g.nextNode from hto).ne]
          intro hk
          have hle := hnext hblocked k (h.owned.mem_nodesOf.mpr ⟨ts'', hk⟩)
          exact absurd hfrom (not_lt.mpr hle)
    · split at hslot
      · cases hslot
      · rw [update_of_ne (h.sound.lt_nextEdgeId hslot).ne] at hedge
        obtain ⟨ts, t, ts', t', hfits⟩ := h.fits hslot hedge
        exact ⟨ts, t, ts', t', hfits.of_update h.owned (label_extend ..)⟩

theorem Traced.wakeUp (h : g.Traced) {n m t t' : ℕ} (hlt : n < m)
    (hn : g.label n = some (g.ts, t)) (hm : g.label m = some (g.ts, t')) :
    (g.withEdge ⟨.vertical, n, m⟩ .outVertical).Traced where
  owned := h.owned.withEdge ..
  clocked := h.clocked.withEdge ..
  alive k hk := by
    rw [label_withEdge]
    exact h.alive k hk
  sound := h.sound.withEdge ⟨.vertical, n, m⟩ (.inl rfl) hn hm
  fits := by
    intro k p e edge hslot hedge
    rw [slot_withEdge ⟨.vertical, n, m⟩ hn hm] at hslot
    rw [edges_withEdge] at hedge
    split at hslot
    · next hnew =>
        obtain rfl := Option.some.inj hslot
        rw [update_self] at hedge
        obtain rfl := Option.some.inj hedge
        have hp : ¬ p.IsHorizontal := by
          rcases hnew with ⟨-, rfl⟩ | ⟨-, rfl⟩ <;> rintro (h | h) <;> cases h
        refine ⟨g.ts, t, g.ts, t', ⟨?_, ?_, hlt, fun _ => rfl, fun hh => absurd hh hp,
          fun hh => absurd hh hp⟩⟩
        · rwa [label_withEdge]
        · rwa [label_withEdge]
    · rw [update_of_ne (h.sound.lt_nextEdgeId hslot).ne] at hedge
      obtain ⟨ts, t, ts', t', hfits⟩ := h.fits hslot hedge
      refine ⟨ts, t, ts', t', ⟨?_, ?_, hfits.lt, hfits.level, hfits.sameThread, ?_⟩⟩
      · rw [label_withEdge, hfits.fromLabel]
      · rw [label_withEdge, hfits.toLabel]
      · intro hp hblocked k ts'' hfrom hto
        rw [label_withEdge]
        exact hfits.next hp hblocked k ts'' hfrom hto

theorem Grows.traced {Hop : CriticalGraph → ℕ → Prop} (h : Grows Hop g g') (hg : g.Traced) :
    g'.Traced := by
  induction h with
  | refl => exact hg
  | node tid _ ih => exact ih.createNode tid
  | cut type _ hlast ih =>
      have hprev := label_of_getLastNodeForThread ih.owned hlast
      exact ih.extend hprev type fun _ k hk => ih.owned.le_last hlast hk
  | hop _ hprev _ ih => exact ih.extend hprev .run (by simp [CriticalEdgeType.isBlocked])
  | wakeUp _ hlt hn hm _ _ ih => exact ih.wakeUp hlt hn hm

end preservation

/-! ### Along the edges of a trace -/

section edges

variable {g : CriticalGraph}

theorem Traced.wakes (h : g.Traced) {w m : ℕ} (hw : g.Wakes w m) :
    w < m ∧ g.tsOf w = g.tsOf m := by
  obtain ⟨id, edge, hslot, hedge, rfl⟩ := hw
  obtain rfl := h.sound.endpoint_eq not_false hslot hedge
  obtain ⟨ts, t, ts', t', hfits⟩ := h.fits hslot hedge
  obtain rfl := hfits.level (by rintro (h | h) <;> cases h)
  refine ⟨hfits.lt, ?_⟩
  rw [tsOf_of_label hfits.fromLabel]
  exact (tsOf_of_label hfits.toLabel).symm

theorem Traced.precedes (h : g.Traced) {p w : ℕ} (hp : g.Precedes p w) :
    p < w ∧ g.tsOf p ≤ g.tsOf w := by
  obtain ⟨id, edge, hslot, hedge, rfl⟩ := hp
  obtain rfl := h.sound.endpoint_eq not_false hslot hedge
  obtain ⟨ts, t, ts', t', hfits⟩ := h.fits hslot hedge
  refine ⟨hfits.lt, ?_⟩
  rw [tsOf_of_label hfits.fromLabel, CriticalEdge.endpoint, tsOf_of_label hfits.toLabel]
  exact h.clocked.ordered hfits.lt hfits.fromLabel hfits.toLabel

theorem Traced.follow (h : g.Traced) {n m : ℕ} (hm : g.Follow n m) :
    ∃ t, g.label n = some (g.tsOf n, t) ∧ g.label m = some (g.tsOf m, t) ∧ n < m ∧
      g.tsOf n ≤ g.tsOf m := by
  obtain ⟨id, edge, hslot, hedge, rfl⟩ := hm
  obtain rfl := h.sound.endpoint_eq not_false hslot hedge
  obtain ⟨ts, t, ts', t', hfits⟩ := h.fits hslot hedge
  obtain rfl := hfits.sameThread (.inl rfl)
  have hle := h.clocked.ordered hfits.lt hfits.fromLabel hfits.toLabel
  rw [CriticalEdge.endpoint, tsOf_of_label hfits.fromLabel, tsOf_of_label hfits.toLabel]
  exact ⟨t, hfits.fromLabel, hfits.toLabel, hfits.lt, hle⟩

theorem Traced.navigable (h : g.Traced) : g.Navigable where
  owned := h.owned
  edge hslot := by
    obtain ⟨edge, hedge, -⟩ := h.sound.stored not_false hslot
    obtain ⟨ts, t, ts', t', hfits⟩ := h.fits hslot hedge
    exact ⟨edge, hedge, ⟨_, hfits.fromLabel⟩, ⟨_, hfits.toLabel⟩⟩
  forward hm := by
    obtain ⟨t, -, -, hlt, -⟩ := h.follow hm
    exact hlt

end edges

end CriticalGraph

end TibeeCompare.Critical

namespace TibeeCompare.CriticalBlocks

open Critical Critical.CriticalGraph CriticalBlock

theorem Reachable.traced {kInvalidThread : ℕ} {b : CriticalBlock}
    (h : Reachable kInvalidThread OnlyEvents b) : b.graph.Traced := by
  induction h with
  | initial => exact traced_empty
  | step hb horder hallowed hstep ih =>
      obtain ⟨ho, hp, -, -⟩ := hb.known
      rcases step_cases (fun _ _ => True) ho hp (fun _ _ _ _ _ => trivial) hstep with
        ⟨ts, event, rfl, heffect⟩ | ⟨ts, order, g, rfl, -, -⟩
      · exact heffect.grows.traced (ih.setTimestamp horder)
      · exact hallowed.elim

end TibeeCompare.CriticalBlocks
