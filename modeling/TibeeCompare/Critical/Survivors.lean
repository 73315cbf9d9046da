import TibeeCompare.Critical.Spares

/-!
What exactly a cleanup leaves of a graph.

A thread loses the nodes before the first one that is not older than the cutoff, and in a thread
that is in the order of time these are all that are older. An edge with a removed endpoint goes
with the sweep of that endpoint, whichever of the two comes first. As long as no edge was
created on a slot that was taken, the slots and the stored edges say the same about an edge, so
that what is left of both is determined by the nodes that are left.
-/

namespace TibeeCompare.Critical

open Runs

namespace CriticalGraph

/-- Graphs built by the operations of the class, each edge of which was created on two slots
that were free. -/
inductive BuiltOnFree : CriticalGraph → Prop
  | empty : BuiltOnFree empty
  | setTimestamp {g : CriticalGraph} (ts : ℕ) : BuiltOnFree g → BuiltOnFree (g.setTimestamp ts)
  | createNode {g : CriticalGraph} (tid : ℕ) : BuiltOnFree g → BuiltOnFree (g.createNode tid).1
  | createHorizontalEdge {g g' : CriticalGraph} {type : CriticalEdgeType} {fromNode toNode id : ℕ} :
      BuiltOnFree g → g.slot fromNode .outHorizontal = none → g.slot toNode .inHorizontal = none →
      g.createHorizontalEdge type fromNode toNode = .ok (g', id) → BuiltOnFree g'
  | createVerticalEdge {g g' : CriticalGraph} {fromNode toNode id : ℕ} :
      BuiltOnFree g → g.slot fromNode .outVertical = none → g.slot toNode .inVertical = none →
      g.createVerticalEdge fromNode toNode = .ok (g', id) → BuiltOnFree g'
  | cleanup {g g' : CriticalGraph} {ts : ℕ} {order : List ℕ} :
      BuiltOnFree g → order.Perm g.tids → g.cleanup ts order = .ok g' → BuiltOnFree g'

theorem BuiltOnFree.built {g : CriticalGraph} (h : BuiltOnFree g) : Built g := by
  induction h with
  | empty => exact .empty
  | setTimestamp ts _ ih => exact ih.setTimestamp ts
  | createNode tid _ ih => exact ih.createNode tid
  | createHorizontalEdge _ _ _ hcreate ih => exact ih.createHorizontalEdge hcreate
  | createVerticalEdge _ _ _ hcreate ih => exact ih.createVerticalEdge hcreate
  | cleanup _ horder hclean ih => exact ih.cleanup horder hclean

/-- The slots and the stored edges say the same. -/
theorem BuiltOnFree.exact {g : CriticalGraph} (h : BuiltOnFree g) : SlotsExact noStale g := by
  induction h with
  | empty => exact slotsExact_empty
  | setTimestamp ts _ ih => exact ⟨⟨ih.stored, ih.sameAxis, ih.fresh⟩, ih.held⟩
  | createNode tid hg ih => exact ih.createNode hg.built.owned tid
  | createHorizontalEdge _ hfree hfree' hcreate ih =>
      obtain ⟨⟨_, hfrom⟩, ⟨_, hto⟩, rfl⟩ := createEdge_ok hcreate
      exact ih.withEdge _ (.inr rfl) hfrom hto hfree hfree'
  | createVerticalEdge _ hfree hfree' hcreate ih =>
      obtain ⟨⟨_, hfrom⟩, ⟨_, hto⟩, rfl⟩ := createEdge_ok hcreate
      exact ih.withEdge _ (.inl rfl) hfrom hto hfree hfree'
  | @cleanup _ _ ts order hg _ hclean ih =>
      obtain ⟨g', hclean', -, hexact⟩ := ih.cleanup_total hg.built.owned ts order
      rw [hclean] at hclean'
      obtain rfl := Except.ok.inj hclean'
      exact hexact

/-- What is left after a cleanup with the cutoff `ts`: the nodes that are not older, the edges
between two of them, and the ids of these edges in their slots. -/
structure KeepsFrom (g : CriticalGraph) (ts : ℕ) (g' : CriticalGraph) : Prop where
  nodesOf : ∀ t, g'.nodesOf t = (g.nodesOf t).filter fun n => ts ≤ g.tsOf n
  label : ∀ n, g'.label n = (g.label n).filter fun label => ts ≤ label.1
  edges : ∀ e, g'.edges e = (g.edges e).filter fun edge =>
    ts ≤ g.tsOf edge.fromNode ∧ ts ≤ g.tsOf edge.toNode
  slot : ∀ n p e, g'.slot n p = some e ↔ g.slot n p = some e ∧ ∃ edge, g'.edges e = some edge
  held : ∀ e edge, g'.edges e = some edge → ∃ out : CriticalEdgePosition, out.IsOut ∧
    g'.slot edge.fromNode out = some e ∧ g'.slot edge.toNode out.opposite = some e

/-- A part of a value that is there exactly when the value has a property. -/
theorem eq_filter_of_kept {α : Type} {x x' : Option α} {p : α → Bool}
    (hbelow : ∀ a, x' = some a → x = some a ∧ p a = true)
    (hkept : ∀ a, x = some a → p a = true → x' = some a) : x' = x.filter p := by
  ext a
  rw [Option.filter_eq_some_iff]
  exact ⟨hbelow a, fun h => hkept a h.1 h.2⟩

section spares

variable {g g' : CriticalGraph} {ts : ℕ} (hs : g.Spares ts g') (ho : g.Owned)
  (hexact : SlotsExact noStale g) (hexact' : SlotsExact noStale g')

include hs ho in
theorem Spares.nodesOf_eq_filter (t : ℕ) :
    g'.nodesOf t = (g.nodesOf t).filter fun n => ts ≤ g.tsOf n := by
  obtain ⟨removed, hsplit⟩ := hs.below.nodesOf (t := t)
  have hnodup := ho.nodup t
  rw [← hsplit] at hnodup ⊢
  have hremoved : removed.filter (fun n => ts ≤ g.tsOf n) = [] := by
    refine List.filter_eq_nil_iff.mpr fun n hn hle => ?_
    have hmem : n ∈ g.nodesOf t := hsplit ▸ List.mem_append_left _ hn
    have hkept := hs.mem_nodesOf ho hmem (of_decide_eq_true hle)
    exact (List.nodup_append.mp hnodup).2.2 n hn n hkept rfl
  have hkept : (g'.nodesOf t).filter (fun n => ts ≤ g.tsOf n) = g'.nodesOf t := by
    refine List.filter_eq_self.mpr fun n hn => decide_eq_true ?_
    have hlabel := hs.owned.label_of_mem hn
    rw [← hs.below.tsOf hlabel]
    exact hs.gone hlabel
  rw [List.filter_append, hremoved, hkept, List.nil_append]

include hs hexact' in
/-- An edge that is left has its id in slots, and so both endpoints. -/
theorem Spares.stays_of_edge {e : ℕ} {edge : CriticalEdge} (h : g'.edges e = some edge) :
    g.Stays ts edge.fromNode ∧ g.Stays ts edge.toNode := by
  obtain ⟨out, -, -, -, hfrom, hto⟩ := hexact'.held h
  obtain ⟨_, hfrom⟩ := label_of_slot hfrom
  obtain ⟨_, hto⟩ := label_of_slot hto
  exact ⟨hs.stays hfrom, hs.stays hto⟩

include hs in
theorem Spares.label_eq_filter (n : ℕ) :
    g'.label n = (g.label n).filter fun label => ts ≤ label.1 := by
  refine eq_filter_of_kept (fun label hlabel => ?_) fun label hlabel hle => ?_
  · exact ⟨hs.below.label hlabel, decide_eq_true (hs.gone hlabel)⟩
  · exact hs.label hlabel (of_decide_eq_true hle)

include hs hexact hexact' in
theorem Spares.edges_eq_filter (e : ℕ) :
    g'.edges e = (g.edges e).filter fun edge =>
      ts ≤ g.tsOf edge.fromNode ∧ ts ≤ g.tsOf edge.toNode := by
  refine eq_filter_of_kept (fun edge hedge => ?_) fun edge hedge hle => ?_
  · obtain ⟨hfrom, hto⟩ := hs.stays_of_edge hexact' hedge
    exact ⟨hs.below.edges hedge, decide_eq_true ⟨hfrom.le_tsOf, hto.le_tsOf⟩⟩
  · obtain ⟨hfromLe, htoLe⟩ := of_decide_eq_true hle
    obtain ⟨out, hout, -, -, hfrom, hto⟩ := hexact.held hedge
    have hfar := (edge.endpoint_out hout).2
    refine (hs.slot hfrom hedge (hexact.firm ts _ _) ?_ ?_).2
    · exact stays_of_slot hfrom hfromLe
    · rw [hfar]
      exact stays_of_slot hto htoLe

include hs hexact hexact' in
theorem Spares.slot_iff (n : ℕ) (p : CriticalEdgePosition) (e : ℕ) :
    g'.slot n p = some e ↔ g.slot n p = some e ∧ ∃ edge, g'.edges e = some edge := by
  constructor
  · intro hslot
    obtain ⟨edge, hedge, -⟩ := hs.sound.stored not_false hslot
    exact ⟨hs.below.slot hslot, edge, hedge⟩
  · rintro ⟨hslot, edge, hedge⟩
    have hold := hs.below.edges hedge
    obtain ⟨hfrom, hto⟩ := hs.stays_of_edge hexact' hedge
    have hends : ∀ q, g.Stays ts (edge.endpoint q) := by
      intro q
      cases q <;> assumption
    have hn := hends p
    rw [hexact.endpoint_eq not_false hslot hold] at hn
    exact (hs.slot hslot hold (hexact.firm ts n p) hn (hends p.opposite)).1

include hs ho hexact hexact' in
/-- What a cleanup leaves of a graph without overwritten slots. -/
theorem Spares.keepsFrom : KeepsFrom g ts g' where
  nodesOf := hs.nodesOf_eq_filter ho
  label := hs.label_eq_filter
  edges := hs.edges_eq_filter hexact hexact'
  slot := hs.slot_iff hexact hexact'
  held e edge hedge := by
    obtain ⟨out, hout, -, -, hfrom, hto⟩ := hexact'.held hedge
    exact ⟨out, hout, hfrom, hto⟩

end spares

/-- A cleanup runs through, in any order of the threads, and keeps exactly what is not older than
its cutoff. -/
theorem cleanup_keepsFrom {g : CriticalGraph} (hg : BuiltOnFree g) (hordered : g.TimeOrdered)
    (ts : ℕ) {order : List ℕ} (horder : order.Perm g.tids) :
    ∃ g', g.cleanup ts order = .ok g' ∧ KeepsFrom g ts g' := by
  have ho := hg.built.owned
  have hexact := hg.exact
  have hcleanable : g.Cleanable ts :=
    ⟨ho, hexact.toSlotsSound, hordered, hexact.sweepable ts⟩
  obtain ⟨g', hclean, hs⟩ := hcleanable.cleanup_spares horder
  exact ⟨g', hclean, hs.keepsFrom ho hexact (hg.cleanup horder hclean).exact⟩

/-- Thread 1 runs from 0 to 5 and wakes up thread 2, which runs from 5 to 10. -/
def wakingRun : CriticalGraph :=
  let g := ((empty.createNode 1).1.setTimestamp 5).createNode 1
  let g := ((g.1.createNode 2).1.setTimestamp 10).createNode 2
  let g := g.1.withEdge ⟨.run, 0, 1⟩ .outHorizontal
  (g.withEdge ⟨.vertical, 1, 2⟩ .outVertical).withEdge ⟨.run, 2, 3⟩ .outHorizontal

theorem builtOnFree_wakingRun : BuiltOnFree wakingRun := by
  have hnodes := (((((BuiltOnFree.empty.createNode 1).setTimestamp 5).createNode 1).createNode
    2).setTimestamp 10).createNode 2
  have hfirst := hnodes.createHorizontalEdge rfl rfl
    (show createHorizontalEdge _ .run 0 1 = _ from createEdge_of_label rfl rfl)
  have hwake := hfirst.createVerticalEdge rfl rfl
    (show createVerticalEdge _ 1 2 = _ from createEdge_of_label rfl rfl)
  exact hwake.createHorizontalEdge rfl rfl
    (show createHorizontalEdge _ .run 2 3 = _ from createEdge_of_label rfl rfl)

/-- The first run is lost, the wake-up and the second run stay. -/
theorem cleanup_keepsFrom_wakingRun :
    ∃ g', wakingRun.cleanup 5 [2, 1] = .ok g' ∧ KeepsFrom wakingRun 5 g' :=
  cleanup_keepsFrom builtOnFree_wakingRun
    (timeOrdered_of_keys builtOnFree_wakingRun.built.owned (by decide)) 5 (by decide)

end CriticalGraph

end TibeeCompare.Critical
