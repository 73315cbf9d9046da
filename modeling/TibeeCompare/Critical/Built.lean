import TibeeCompare.Critical.Cleanup
import Mathlib.Data.List.TakeWhile

/-!
The graphs that the public operations of `CriticalGraph` can build.

`Below` says that an operation invents nothing: what a sweep leaves was there
before. `Built` is closed under all operations, in any order and with any
arguments, and its invariants hold of every graph that a search is run on.
-/

namespace TibeeCompare.Critical

open Function Runs

namespace CriticalGraph

/-- Nodes, slots and edges of `g'` are those of `g`, or fewer. -/
structure Below (g' g : CriticalGraph) : Prop where
  label : ∀ {n label}, g'.label n = some label → g.label n = some label
  slot : ∀ {n p e}, g'.slot n p = some e → g.slot n p = some e
  edges : ∀ {e edge}, g'.edges e = some edge → g.edges e = some edge
  nodesOf : ∀ {t}, g'.nodesOf t <:+ g.nodesOf t
  ts : g'.ts = g.ts
  nextNode : g'.nextNode = g.nextNode

theorem Below.refl (g : CriticalGraph) : Below g g :=
  ⟨id, id, id, List.suffix_rfl, rfl, rfl⟩

theorem Below.trans {g₁ g₂ g₃ : CriticalGraph} (h : Below g₁ g₂) (h' : Below g₂ g₃) :
    Below g₁ g₃ :=
  ⟨fun hl => h'.label (h.label hl), fun hs => h'.slot (h.slot hs),
    fun he => h'.edges (h.edges he), h.nodesOf.trans h'.nodesOf, h.ts.trans h'.ts,
    h.nextNode.trans h'.nextNode⟩

theorem below_cleanThread {g g' : CriticalGraph} (hg : g.Owned) {ts tid : ℕ}
    (h : cleanThread ts g tid = .ok g') : Below g' g := by
  have hlabel := hg.label_cleanThread h
  have hself := nodesOf_cleanThread_self h
  have hother : ∀ t, t ≠ tid → g'.nodesOf t = g.nodesOf t :=
    fun _ => hg.nodesOf_cleanThread_of_ne h
  obtain ⟨g₁, hsweep, rfl⟩ := cleanThread_ok h
  have hs := shrinks_sweep (hg.staleNodes_nodup ts tid) hsweep
  refine ⟨?_, ?_, hs.edges, ?_, hs.ts, hs.nextNode⟩
  · intro n label hn
    rw [hlabel] at hn
    split at hn
    · cases hn
    · exact hn
  · intro n p e hslot
    exact hs.slot (slot_of_slot_replaceNodes _ _ _ _ hslot).2
  · intro t
    by_cases ht : t = tid
    · rw [ht, hself]
      exact List.dropWhile_suffix _
    · exact ⟨[], (hother t ht).symm ▸ rfl⟩

theorem below_cleanup {g g' : CriticalGraph} (hg : g.Owned) {ts : ℕ} {order : List ℕ}
    (h : g.cleanup ts order = .ok g') : Below g' g := by
  have hrun := run_invariant (P := fun mid => mid.Owned ∧ Below mid g) ?_ ⟨hg, Below.refl g⟩ h
  · exact hrun.2
  · rintro tid - mid mid' ⟨hmid, hbelow⟩ hstep
    exact ⟨hmid.cleanThread hstep, (below_cleanThread hmid hstep).trans hbelow⟩

/-- A sweep keeps the nodes that are not older than the cutoff. -/
theorem label_cleanup_of_le {g g' : CriticalGraph} (hg : g.Owned) {ts : ℕ} {order : List ℕ}
    {n nodeTs tid : ℕ} (hlabel : g.label n = some (nodeTs, tid)) (hle : ts ≤ nodeTs)
    (h : g.cleanup ts order = .ok g') : g'.label n = some (nodeTs, tid) := by
  have hrun := run_invariant
    (P := fun mid : CriticalGraph => mid.Owned ∧ mid.label n = some (nodeTs, tid)) ?_
    ⟨hg, hlabel⟩ h
  · exact hrun.2
  · rintro t - mid mid' ⟨hmid, hn⟩ hstep
    refine ⟨hmid.cleanThread hstep, ?_⟩
    have hkept : ts ≤ mid.tsOf n := by rwa [tsOf_of_label hn]
    rw [hmid.label_cleanThread hstep, if_neg (not_mem_staleNodes hkept t), hn]

/-- Graphs built by the operations of the class. -/
inductive Built : CriticalGraph → Prop
  | empty : Built empty
  | setTimestamp {g : CriticalGraph} (ts : ℕ) : Built g → Built (g.setTimestamp ts)
  | createNode {g : CriticalGraph} (tid : ℕ) : Built g → Built (g.createNode tid).1
  | createHorizontalEdge {g g' : CriticalGraph} {type : CriticalEdgeType} {fromNode toNode id : ℕ} :
      Built g → g.createHorizontalEdge type fromNode toNode = .ok (g', id) → Built g'
  | createVerticalEdge {g g' : CriticalGraph} {fromNode toNode id : ℕ} :
      Built g → g.createVerticalEdge fromNode toNode = .ok (g', id) → Built g'
  | cleanup {g g' : CriticalGraph} {ts : ℕ} {order : List ℕ} :
      Built g → order.Perm g.tids → g.cleanup ts order = .ok g' → Built g'

theorem Built.owned {g : CriticalGraph} (h : Built g) : g.Owned := by
  induction h with
  | empty => exact owned_empty
  | setTimestamp ts _ ih => exact ih.setTimestamp ts
  | createNode tid _ ih => exact ih.createNode tid
  | createHorizontalEdge _ hcreate ih =>
      obtain ⟨-, -, rfl⟩ := createEdge_ok hcreate
      exact ih.withEdge ..
  | createVerticalEdge _ hcreate ih =>
      obtain ⟨-, -, rfl⟩ := createEdge_ok hcreate
      exact ih.withEdge ..
  | cleanup _ _ hclean ih => exact ih.cleanup hclean

theorem Built.slotsSound {g : CriticalGraph} (h : Built g) : SlotsSound noStale g := by
  induction h with
  | empty => exact slotsExact_empty.toSlotsSound
  | setTimestamp ts _ ih => exact ⟨ih.stored, ih.sameAxis, ih.fresh⟩
  | createNode tid _ ih => exact ih.createNode tid
  | createHorizontalEdge _ hcreate ih =>
      obtain ⟨⟨_, hfrom⟩, ⟨_, hto⟩, rfl⟩ := createEdge_ok hcreate
      exact ih.withEdge _ (.inr rfl) hfrom hto
  | createVerticalEdge _ hcreate ih =>
      obtain ⟨⟨_, hfrom⟩, ⟨_, hto⟩, rfl⟩ := createEdge_ok hcreate
      exact ih.withEdge _ (.inl rfl) hfrom hto
  | cleanup hg _ hclean ih => exact ih.cleanup hg.owned hclean

/-- Slots and stored edges agree. -/
structure Consistent (g : CriticalGraph) : Prop where
  fromNode : ∀ {e edge}, g.edges e = some edge → ∃ label, g.label edge.fromNode = some label
  toNode : ∀ {e edge}, g.edges e = some edge → ∃ label, g.label edge.toNode = some label
  held : ∀ {e edge}, g.edges e = some edge → ∃ out : CriticalEdgePosition, out.IsOut ∧
    g.slot edge.fromNode out = some e ∧ g.slot edge.toNode out.opposite = some e
  stored : ∀ {n p e}, g.slot n p = some e →
    ∃ edge, g.getEdge e = .ok edge ∧ edge.endpoint p = n

theorem SlotsExact.consistent {g : CriticalGraph} (h : SlotsExact noStale g) :
    g.Consistent where
  fromNode hedge := by
    obtain ⟨out, -, -, -, hslot, -⟩ := h.held hedge
    exact label_of_slot hslot
  toNode hedge := by
    obtain ⟨out, -, -, -, -, hslot⟩ := h.held hedge
    exact label_of_slot hslot
  held hedge := by
    obtain ⟨out, hout, -, -, hslot, hslot'⟩ := h.held hedge
    exact ⟨out, hout, hslot, hslot'⟩
  stored hslot := by
    obtain ⟨edge, hedge, hend⟩ := h.stored not_false hslot
    exact ⟨edge, by simp [getEdge, hedge], hend⟩

/-- An id in a vertical slot was written by `CreateVerticalEdge`. -/
def VerticalTyped (g : CriticalGraph) : Prop :=
  ∀ n e edge, (g.slot n .inVertical = some e ∨ g.slot n .outVertical = some e) →
    g.edges e = some edge → edge.type = .vertical

theorem VerticalTyped.of_below {g g' : CriticalGraph} (h : g.VerticalTyped) (hb : Below g' g) :
    g'.VerticalTyped := by
  intro n e edge hslot hedge
  exact h n e edge (hslot.imp hb.slot hb.slot) (hb.edges hedge)

theorem VerticalTyped.withEdge {g : CriticalGraph} (h : g.VerticalTyped)
    (hs : SlotsSound noStale g) {edge : CriticalEdge} {out : CriticalEdgePosition}
    {label label' : ℕ × ℕ} (hfrom : g.label edge.fromNode = some label)
    (hto : g.label edge.toNode = some label')
    (hout : out = .outHorizontal ∨ (out = .outVertical ∧ edge.type = .vertical)) :
    (g.withEdge edge out).VerticalTyped := by
  intro n e edge' hslot hedge'
  rw [edges_withEdge] at hedge'
  by_cases he : e = g.nextEdgeId
  · subst he
    rw [update_self] at hedge'
    obtain rfl := Option.some.inj hedge'
    rcases hout with rfl | ⟨-, htype⟩
    · -- The new id was written into horizontal slots only.
      have hstale : ∀ p, g.slot n p ≠ some g.nextEdgeId := by
        intro p hp
        exact absurd (hs.lt_nextEdgeId hp) (lt_irrefl _)
      rcases hslot with hslot | hslot <;> rw [slot_withEdge _ hfrom hto] at hslot <;>
        simp [CriticalEdgePosition.opposite, hstale] at hslot
    · exact htype
  · rw [update_of_ne he] at hedge'
    have hold : ∀ p, (g.withEdge edge out).slot n p = some e → g.slot n p = some e := by
      intro p hp
      rw [slot_withEdge _ hfrom hto] at hp
      split at hp
      · exact absurd (Option.some.inj hp).symm he
      · exact hp
    exact h n e edge' (hslot.imp (hold _) (hold _)) hedge'

theorem Built.verticalTyped {g : CriticalGraph} (h : Built g) : g.VerticalTyped := by
  induction h with
  | empty => intro n e edge _ hedge; cases hedge
  | setTimestamp ts _ ih => exact ih
  | createNode tid _ ih =>
      intro n e edge hslot hedge
      exact ih n e edge (hslot.imp slot_of_slot_createNode slot_of_slot_createNode) hedge
  | createHorizontalEdge hg hcreate ih =>
      obtain ⟨⟨_, hfrom⟩, ⟨_, hto⟩, rfl⟩ := createEdge_ok hcreate
      exact ih.withEdge hg.slotsSound hfrom hto (.inl rfl)
  | createVerticalEdge hg hcreate ih =>
      obtain ⟨⟨_, hfrom⟩, ⟨_, hto⟩, rfl⟩ := createEdge_ok hcreate
      exact ih.withEdge hg.slotsSound hfrom hto (.inr ⟨rfl, rfl⟩)
  | cleanup hg _ hclean ih => exact ih.of_below (below_cleanup hg.owned hclean)

end CriticalGraph

end TibeeCompare.Critical
