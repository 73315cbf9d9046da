import TibeeCompare.Critical.GraphInvariants
import TibeeCompare.Lib.Runs
import Mathlib.Data.List.Induction

/-!
What `CriticalGraph::Cleanup` keeps and what it removes.

The sweep goes through the slots of the stale nodes one at a time. `cleanSlot_ok`
says once what happens to a slot; `sweep_induction` lifts a property with a set of
stale slots from one slot to the stale nodes of a thread, and `cleanThread_ok`
adds that these nodes are then freed.
-/

namespace TibeeCompare.Critical

open Function Runs

def StaleSlots.insert (stale : StaleSlots) (n : ℕ) (p : CriticalEdgePosition) : StaleSlots :=
  fun m q => stale m q ∨ (m = n ∧ q = p)

def StaleSlots.insertNode (stale : StaleSlots) (n : ℕ) : StaleSlots :=
  fun m q => stale m q ∨ m = n

/-- All slots of the given nodes are stale. -/
def StaleSlots.ofNodes (nodes : List ℕ) : StaleSlots := fun m _ => m ∈ nodes

namespace CriticalGraph

/-- The graph after an edge is erased and one slot cleared. -/
def dropEdge (g : CriticalGraph) (e m : ℕ) (q : CriticalEdgePosition) : CriticalGraph :=
  { g.writeSlot m q none with edges := update g.edges e none }

@[simp] theorem label_dropEdge (g : CriticalGraph) (e m : ℕ) (q : CriticalEdgePosition) :
    (g.dropEdge e m q).label = g.label :=
  label_writeSlot ..

@[simp] theorem edges_dropEdge (g : CriticalGraph) (e m : ℕ) (q : CriticalEdgePosition) :
    (g.dropEdge e m q).edges = update g.edges e none := rfl

theorem slot_dropEdge {g : CriticalGraph} {e m : ℕ} {q : CriticalEdgePosition}
    {label : ℕ × ℕ} (hm : g.label m = some label) (n : ℕ) (p : CriticalEdgePosition) :
    (g.dropEdge e m q).slot n p = if n = m ∧ p = q then none else g.slot n p := by
  have h := slot_writeSlot g m q none n p
  simp only [hm, Option.isSome_some, and_true] at h
  exact h

/-- What cleaning one slot does: nothing when it is empty; else its edge is
erased, and the slot at the other end cleared. -/
theorem cleanSlot_ok {g g' : CriticalGraph} {n : ℕ} {p : CriticalEdgePosition}
    (h : cleanSlot n g p = .ok g') :
    (g.slot n p = none ∧ g' = g) ∨
      ∃ e edge label, g.slot n p = some e ∧ g.edges e = some edge ∧
        g.label (edge.endpoint p.opposite) = some label ∧
          g' = g.dropEdge e (edge.endpoint p.opposite) p.opposite := by
  unfold cleanSlot at h
  obtain ⟨node, hnode, h⟩ := bind_eq_ok.mp h
  have hheap : g.heap n = some node := by
    unfold deref at hnode
    cases hn : g.heap n <;> simp_all
  rw [slot_of_heap hheap]
  cases hedge : node.edge p with
  | none =>
      rw [hedge] at h
      exact .inl ⟨rfl, (Except.ok.inj h).symm⟩
  | some e =>
      rw [hedge] at h
      obtain ⟨edge, hget, h⟩ := bind_eq_ok.mp h
      have hstored : g.edges e = some edge := by
        unfold getEdge at hget
        cases he : g.edges e <;> simp_all
      obtain ⟨g₁, hset, h⟩ := bind_eq_ok.mp h
      obtain ⟨label, hlabel, rfl⟩ := setEdge_ok hset
      refine .inr ⟨e, edge, label, rfl, hstored, ?_, ?_⟩
      · cases p <;> exact hlabel
      · rw [← Except.ok.inj h]
        cases p <;> rfl

/-- The edge in the slot `p` of `n` has its other end at `m`. -/
def PointsTo (g : CriticalGraph) (n : ℕ) (p : CriticalEdgePosition) (m : ℕ) : Prop :=
  ∃ e edge, g.slot n p = some e ∧ g.edges e = some edge ∧ edge.endpoint p.opposite = m

theorem cleanSlot_total {g : CriticalGraph} {n : ℕ} {p : CriticalEdgePosition} {label : ℕ × ℕ}
    (hn : g.label n = some label)
    (hedge : ∀ e, g.slot n p = some e → ∃ edge label, g.edges e = some edge ∧
      g.label (edge.endpoint p.opposite) = some label) :
    ∃ g', cleanSlot n g p = .ok g' := by
  obtain ⟨node, hnode, -⟩ := heap_of_label hn
  rw [slot_of_heap hnode] at hedge
  unfold cleanSlot
  rw [deref_of_heap hnode]
  cases he : node.edge p with
  | none => exact ⟨g, by simp [bind, Except.bind, he]; rfl⟩
  | some e =>
      obtain ⟨edge, label', hstored, hlabel⟩ := hedge e he
      have hset := setEdge_of_label hlabel p.opposite none
      refine ⟨g.dropEdge e (edge.endpoint p.opposite) p.opposite, ?_⟩
      simp only [bind, Except.bind, he, getEdge, hstored]
      cases p <;>
        (simp only [CriticalEdge.endpoint, CriticalEdgePosition.opposite] at hset
         simp only [hset, CriticalEdgePosition.opposite]
         rfl)

/-! ### From one slot to the stale nodes of a thread -/

section sweep

variable {P : StaleSlots → CriticalGraph → Prop}

/-- Cleaning one slot keeps a property, with this slot added to the stale ones. -/
abbrev SlotStep (P : StaleSlots → CriticalGraph → Prop) : Prop :=
  ∀ stale g g' n p, ¬ stale n p → P stale g → cleanSlot n g p = .ok g' → P (stale.insert n p) g'

theorem cleanNode_induction (hstep : SlotStep P) {stale : StaleSlots} {g g' : CriticalGraph}
    {n : ℕ} (hn : ∀ p, ¬ stale n p) (hP : P stale g) (h : cleanNode g n = .ok g') :
    P (stale.insertNode n) g' := by
  have hall : stale.insertNode n = (((stale.insert n .outVertical).insert n .inVertical).insert n
      .outHorizontal).insert n .inHorizontal := by
    funext m q
    cases q <;> simp [StaleSlots.insertNode, StaleSlots.insert]
  rw [hall]
  obtain ⟨g₁, h₁, h⟩ := run_cons_eq_ok.mp h
  obtain ⟨g₂, h₂, h⟩ := run_cons_eq_ok.mp h
  obtain ⟨g₃, h₃, h⟩ := run_cons_eq_ok.mp h
  obtain ⟨g₄, h₄, h⟩ := run_cons_eq_ok.mp h
  cases h
  refine hstep _ _ _ _ _ ?_ (hstep _ _ _ _ _ ?_ (hstep _ _ _ _ _ ?_
    (hstep _ _ _ _ _ (hn _) hP h₁) h₂) h₃) h₄ <;> simp [StaleSlots.insert, hn]

theorem sweep_induction (hstep : SlotStep P) {nodes : List ℕ} (hnodup : nodes.Nodup)
    {g g' : CriticalGraph} (hP : P noStale g) (h : nodes.foldlM cleanNode g = .ok g') :
    P (StaleSlots.ofNodes nodes) g' := by
  refine run_invariant_of_prefix (P := fun done g => P (StaleSlots.ofNodes done) g) ?_ ?_ h
  · have hnil : StaleSlots.ofNodes [] = noStale := by
      funext m q
      simp [StaleSlots.ofNodes]
    rwa [hnil]
  · intro pre n post mid mid' hsplit hmid hclean
    have hnot : n ∉ pre := by
      rw [hsplit] at hnodup
      intro hmem
      exact (List.nodup_append.mp hnodup).2.2 n hmem n List.mem_cons_self rfl
    have hsnoc : StaleSlots.ofNodes (pre ++ [n]) = (StaleSlots.ofNodes pre).insertNode n := by
      funext m q
      simp [StaleSlots.ofNodes, StaleSlots.insertNode]
    rw [hsnoc]
    exact cleanNode_induction hstep (fun _ => hnot) hmid hclean

end sweep

/-! ### The slot invariants are kept by cleaning a slot -/

theorem SlotsSound.cleanSlot {stale : StaleSlots} {g g' : CriticalGraph} {n : ℕ}
    {p : CriticalEdgePosition} (hn : ¬ stale n p) (hg : SlotsSound stale g)
    (h : cleanSlot n g p = .ok g') : SlotsSound (stale.insert n p) g' := by
  rcases cleanSlot_ok h with ⟨hnone, rfl⟩ | ⟨e, edge, label, hslot, hedge, hlabel, rfl⟩
  · exact ⟨fun hm => hg.stored fun hs => hm (.inl hs),
      fun hm hm' => hg.sameAxis (fun hs => hm (.inl hs)) fun hs => hm' (.inl hs), hg.fresh⟩
  obtain ⟨edge', hedge', hend⟩ := hg.stored hn hslot
  obtain rfl : edge = edge' := Option.some.inj (hedge.symm.trans hedge')
  have hold : ∀ {m q e'}, (g.dropEdge e (edge.endpoint p.opposite) p.opposite).slot m q = some e' →
      ¬ (m = edge.endpoint p.opposite ∧ q = p.opposite) ∧ g.slot m q = some e' := by
    intro m q e' hm
    rw [slot_dropEdge hlabel] at hm
    split at hm
    · cases hm
    · next hne => exact ⟨hne, hm⟩
  refine ⟨?_, ?_, ?_⟩
  · intro m q e' hm hm'
    obtain ⟨hne, hslot'⟩ := hold hm'
    have hms : ¬ stale m q := fun hs => hm (.inl hs)
    obtain ⟨edge', hstored, hend'⟩ := hg.stored hms hslot'
    refine ⟨edge', ?_, hend'⟩
    -- Another slot that is not stale holds another id.
    have hne' : e' ≠ e := by
      rintro rfl
      obtain rfl : edge = edge' := Option.some.inj (hedge.symm.trans hstored)
      rcases hg.sameAxis hn hms hslot hslot' with rfl | rfl
      · exact hm (.inr ⟨hend'.symm.trans hend, rfl⟩)
      · exact hne ⟨hend'.symm, rfl⟩
    rw [edges_dropEdge, update_of_ne hne', hstored]
  · intro m q m' q' e' hm hm' hslot₁ hslot₂
    exact hg.sameAxis (fun hs => hm (.inl hs)) (fun hs => hm' (.inl hs)) (hold hslot₁).2
      (hold hslot₂).2
  · intro e' edge' hedge'
    rw [edges_dropEdge] at hedge'
    by_cases he : e' = e
    · subst he
      rw [update_self] at hedge'
      cases hedge'
    · rw [update_of_ne he] at hedge'
      exact hg.fresh hedge'

/-- The slot at the other end of an edge holds its id as well. -/
theorem SlotsExact.far {stale : StaleSlots} {g : CriticalGraph} (hg : SlotsExact stale g) {n : ℕ}
    {p : CriticalEdgePosition} (hn : ¬ stale n p) {e : ℕ} (hslot : g.slot n p = some e)
    {edge : CriticalEdge} (hedge : g.edges e = some edge) :
    g.slot (edge.endpoint p.opposite) p.opposite = some e := by
  obtain ⟨out, hout, hfrom, hto, hslot₁, hslot₂⟩ := hg.held hedge
  obtain ⟨hep, hep'⟩ := edge.endpoint_out hout
  rcases hg.sameAxis hfrom hn hslot₁ hslot with rfl | rfl
  · rwa [hep']
  · rwa [CriticalEdgePosition.opposite_opposite, hep]

theorem SlotsExact.cleanSlot {stale : StaleSlots} {g g' : CriticalGraph} {n : ℕ}
    {p : CriticalEdgePosition} (hn : ¬ stale n p) (hg : SlotsExact stale g)
    (h : cleanSlot n g p = .ok g') : SlotsExact (stale.insert n p) g' where
  toSlotsSound := hg.toSlotsSound.cleanSlot hn h
  held := by
    intro e' edge' hedge'
    rcases cleanSlot_ok h with ⟨hnone, rfl⟩ | ⟨e, edge, label, hslot, hedge, hlabel, rfl⟩
    · obtain ⟨out, hout, hfrom, hto, hslot, hslot'⟩ := hg.held hedge'
      refine ⟨out, hout, ?_, ?_, hslot, hslot'⟩
      · rintro (hs | ⟨rfl, rfl⟩)
        · exact hfrom hs
        · rw [hnone] at hslot
          cases hslot
      · rintro (hs | ⟨rfl, rfl⟩)
        · exact hto hs
        · rw [hnone] at hslot'
          cases hslot'
    rw [edges_dropEdge] at hedge'
    by_cases he : e' = e
    · subst he
      rw [update_self] at hedge'
      cases hedge'
    rw [update_of_ne he] at hedge'
    obtain ⟨out, hout, hfrom, hto, hslot₁, hslot₂⟩ := hg.held hedge'
    -- The slot that is cleared holds the id of the erased edge.
    have hfar := hg.far hn hslot hedge
    have hkeep : ∀ {m q}, g.slot m q = some e' → ¬ stale m q →
        ¬ stale.insert n p m q ∧
          (g.dropEdge e (edge.endpoint p.opposite) p.opposite).slot m q = some e' := by
      intro m q hm hms
      constructor
      · rintro (hs | ⟨rfl, rfl⟩)
        · exact hms hs
        · exact he (Option.some.inj (hm.symm.trans hslot))
      · rw [slot_dropEdge hlabel, if_neg, hm]
        rintro ⟨rfl, rfl⟩
        exact he (Option.some.inj (hm.symm.trans hfar))
    exact ⟨out, hout, (hkeep hslot₁ hfrom).1, (hkeep hslot₂ hto).1, (hkeep hslot₁ hfrom).2,
      (hkeep hslot₂ hto).2⟩

/-! ### What a sweep leaves alone -/

/-- The labels, the vectors and the counters are the same; slots may have been
cleared and edges erased. -/
structure Shrinks (g g' : CriticalGraph) : Prop where
  label : g'.label = g.label
  nodesOf : g'.nodesOf = g.nodesOf
  tids : g'.tids = g.tids
  ts : g'.ts = g.ts
  nextNode : g'.nextNode = g.nextNode
  nextEdgeId : g'.nextEdgeId = g.nextEdgeId
  slot : ∀ {n p e}, g'.slot n p = some e → g.slot n p = some e
  edges : ∀ {e edge}, g'.edges e = some edge → g.edges e = some edge

theorem Shrinks.refl (g : CriticalGraph) : Shrinks g g :=
  ⟨rfl, rfl, rfl, rfl, rfl, rfl, id, id⟩

theorem shrinks_dropEdge {g : CriticalGraph} {e m : ℕ} {q : CriticalEdgePosition} {label : ℕ × ℕ}
    (hm : g.label m = some label) : Shrinks g (g.dropEdge e m q) where
  label := label_dropEdge ..
  nodesOf := rfl
  tids := rfl
  ts := rfl
  nextNode := rfl
  nextEdgeId := rfl
  slot := by
    intro n p e' h
    rw [slot_dropEdge hm] at h
    split at h
    · cases h
    · exact h
  edges := by
    intro e' edge h
    rw [edges_dropEdge] at h
    by_cases he : e' = e
    · subst he
      simp at h
    · rwa [update_of_ne he] at h

theorem Shrinks.cleanSlot {g₀ g g' : CriticalGraph} {n : ℕ} {p : CriticalEdgePosition}
    (hg : Shrinks g₀ g) (h : cleanSlot n g p = .ok g') : Shrinks g₀ g' := by
  rcases cleanSlot_ok h with ⟨-, rfl⟩ | ⟨e, edge, label, -, -, hlabel, rfl⟩
  · exact hg
  · have hd := shrinks_dropEdge (e := e) (q := p.opposite) hlabel
    exact ⟨hd.label.trans hg.label, hd.nodesOf.trans hg.nodesOf, hd.tids.trans hg.tids,
      hd.ts.trans hg.ts, hd.nextNode.trans hg.nextNode, hd.nextEdgeId.trans hg.nextEdgeId,
      fun hs => hg.slot (hd.slot hs), fun he => hg.edges (hd.edges he)⟩

theorem Owned.nodup {g : CriticalGraph} (hg : g.Owned) (tid : ℕ) : (g.nodesOf tid).Nodup :=
  (hg.sorted tid).imp fun h => ne_of_lt h

theorem staleNodes_append_keptNodes (g : CriticalGraph) (ts tid : ℕ) :
    g.staleNodes ts tid ++ g.keptNodes ts tid = g.nodesOf tid :=
  List.takeWhile_append_dropWhile

theorem mem_nodesOf_of_mem_staleNodes {g : CriticalGraph} {ts tid n : ℕ}
    (h : n ∈ g.staleNodes ts tid) : n ∈ g.nodesOf tid :=
  (List.takeWhile_sublist _).subset h

theorem Owned.staleNodes_nodup {g : CriticalGraph} (hg : g.Owned) (ts tid : ℕ) :
    (g.staleNodes ts tid).Nodup :=
  (hg.nodup tid).sublist (List.takeWhile_sublist _)

theorem cleanThread_ok {g g' : CriticalGraph} {ts tid : ℕ} (h : cleanThread ts g tid = .ok g') :
    ∃ g₁, (g.staleNodes ts tid).foldlM cleanNode g = .ok g₁ ∧
      g' = g₁.replaceNodes tid (g.staleNodes ts tid) (g.keptNodes ts tid) := by
  obtain ⟨g₁, h₁, h⟩ := bind_eq_ok.mp h
  exact ⟨g₁, h₁, (Except.ok.inj h).symm⟩

section replaceNodes

variable (g : CriticalGraph) (tid : ℕ) (stale kept : List ℕ)

theorem label_replaceNodes (n : ℕ) :
    (g.replaceNodes tid stale kept).label n = if n ∈ stale then none else g.label n := by
  by_cases hn : n ∈ stale <;> simp [label, replaceNodes, hn]

theorem label_of_label_replaceNodes {n : ℕ} {label : ℕ × ℕ}
    (h : (g.replaceNodes tid stale kept).label n = some label) :
    n ∉ stale ∧ g.label n = some label := by
  rw [label_replaceNodes] at h
  split at h
  · cases h
  · next hn => exact ⟨hn, h⟩

theorem slot_replaceNodes (n : ℕ) (p : CriticalEdgePosition) :
    (g.replaceNodes tid stale kept).slot n p = if n ∈ stale then none else g.slot n p := by
  by_cases hn : n ∈ stale <;> simp [slot, replaceNodes, hn]

theorem slot_of_slot_replaceNodes {n : ℕ} {p : CriticalEdgePosition} {e : ℕ}
    (h : (g.replaceNodes tid stale kept).slot n p = some e) : n ∉ stale ∧ g.slot n p = some e := by
  rw [slot_replaceNodes] at h
  split at h
  · cases h
  · next hn => exact ⟨hn, h⟩

end replaceNodes

theorem shrinks_sweep {g g' : CriticalGraph} {nodes : List ℕ} (hnodup : nodes.Nodup)
    (h : nodes.foldlM cleanNode g = .ok g') : Shrinks g g' :=
  sweep_induction (P := fun _ => Shrinks g) (fun _ _ _ _ _ _ hP => hP.cleanSlot) hnodup
    (Shrinks.refl g) h

/-- The sweep of a thread frees its stale nodes and no other. -/
theorem Owned.label_cleanThread {g g' : CriticalGraph} (hg : g.Owned) {ts tid : ℕ}
    (h : CriticalGraph.cleanThread ts g tid = .ok g') (n : ℕ) :
    g'.label n = if n ∈ g.staleNodes ts tid then none else g.label n := by
  obtain ⟨g₁, hsweep, rfl⟩ := cleanThread_ok h
  have hs := shrinks_sweep (hg.staleNodes_nodup ts tid) hsweep
  rw [label_replaceNodes, hs.label]

/-- A sweep leaves the nodes that are not older than the cutoff. -/
theorem not_mem_staleNodes {g : CriticalGraph} {ts n : ℕ} (hle : ts ≤ g.tsOf n) (tid : ℕ) :
    n ∉ g.staleNodes ts tid := by
  intro hstale
  have hlt : g.tsOf n < ts := by simpa using List.mem_takeWhile_imp hstale
  omega

theorem nodesOf_cleanThread_self {g g' : CriticalGraph} {ts tid : ℕ}
    (h : cleanThread ts g tid = .ok g') : g'.nodesOf tid = g.keptNodes ts tid := by
  obtain ⟨g₁, -, rfl⟩ := cleanThread_ok h
  exact update_self ..

theorem Owned.nodesOf_cleanThread_of_ne {g g' : CriticalGraph} (hg : g.Owned) {ts tid t : ℕ}
    (h : CriticalGraph.cleanThread ts g tid = .ok g') (ht : t ≠ tid) :
    g'.nodesOf t = g.nodesOf t := by
  obtain ⟨g₁, hsweep, rfl⟩ := cleanThread_ok h
  have hs := shrinks_sweep (hg.staleNodes_nodup ts tid) hsweep
  exact (update_of_ne ht ..).trans (congrFun hs.nodesOf t)

/-- The vectors lose exactly the nodes that are freed. -/
theorem Owned.mem_nodesOf_cleanThread {g g' : CriticalGraph} (hg : g.Owned) {ts tid : ℕ}
    (h : CriticalGraph.cleanThread ts g tid = .ok g') {t n : ℕ} :
    n ∈ g'.nodesOf t ↔ n ∈ g.nodesOf t ∧ n ∉ g.staleNodes ts tid := by
  have hsplit := g.staleNodes_append_keptNodes ts tid
  by_cases ht : t = tid
  · subst ht
    have hnodup := hg.nodup t
    rw [← hsplit] at hnodup
    have hdisjoint := (List.nodup_append.mp hnodup).2.2
    rw [nodesOf_cleanThread_self h, ← hsplit, List.mem_append]
    constructor
    · exact fun hkept => ⟨.inr hkept, fun hstale => hdisjoint n hstale n hkept rfl⟩
    · exact fun ⟨hmem, hstale⟩ => hmem.resolve_left hstale
  · rw [hg.nodesOf_cleanThread_of_ne h ht, iff_self_and]
    -- a node belongs to one thread only
    intro hn hstale
    have hn' := mem_nodesOf_of_mem_staleNodes hstale
    rw [hg.mem_nodesOf] at hn hn'
    obtain ⟨ts₁, hlabel₁⟩ := hn
    obtain ⟨ts₂, hlabel₂⟩ := hn'
    rw [hlabel₁] at hlabel₂
    exact ht (Prod.mk.inj (Option.some.inj hlabel₂)).2

theorem Owned.cleanThread {g g' : CriticalGraph} (hg : g.Owned) {ts tid : ℕ}
    (h : cleanThread ts g tid = .ok g') : g'.Owned := by
  have hlabel := hg.label_cleanThread h
  have hmem : ∀ {t n}, n ∈ g'.nodesOf t ↔ n ∈ g.nodesOf t ∧ n ∉ g.staleNodes ts tid :=
    hg.mem_nodesOf_cleanThread h
  have hself := nodesOf_cleanThread_self h
  have hother : ∀ t, t ≠ tid → g'.nodesOf t = g.nodesOf t :=
    fun _ => hg.nodesOf_cleanThread_of_ne h
  obtain ⟨g₁, hsweep, rfl⟩ := cleanThread_ok h
  have hs := shrinks_sweep (hg.staleNodes_nodup ts tid) hsweep
  refine ⟨?_, ?_, ?_, ?_⟩
  · intro t n
    rw [hmem, hlabel, hg.mem_nodesOf]
    split <;> simp [*]
  · intro n label hn
    rw [hlabel] at hn
    split at hn
    · cases hn
    · exact hs.nextNode ▸ hg.lt_next hn
  · intro t
    by_cases ht : t = tid
    · rw [ht, hself]
      exact (hg.sorted tid).sublist (List.dropWhile_sublist _)
    · rw [hother t ht]
      exact hg.sorted t
  · intro t n hn
    have hkeys := hg.keys (hmem.mp hn).1
    rwa [← hs.tids] at hkeys

theorem SlotsSound.cleanThread {g g' : CriticalGraph} (hg : SlotsSound noStale g) (ho : g.Owned)
    {ts tid : ℕ} (h : cleanThread ts g tid = .ok g') : SlotsSound noStale g' := by
  obtain ⟨g₁, hsweep, rfl⟩ := cleanThread_ok h
  have hs : SlotsSound (StaleSlots.ofNodes (g.staleNodes ts tid)) g₁ :=
    sweep_induction (P := SlotsSound) (fun _ _ _ _ _ hn hP => hP.cleanSlot hn)
      (ho.staleNodes_nodup ts tid) hg hsweep
  refine ⟨?_, ?_, hs.fresh⟩
  · intro n p e _ hslot
    obtain ⟨hn, hslot⟩ := slot_of_slot_replaceNodes _ _ _ _ hslot
    exact hs.stored hn hslot
  · intro n p m q e _ _ hslot hslot'
    obtain ⟨hn, hslot⟩ := slot_of_slot_replaceNodes _ _ _ _ hslot
    obtain ⟨hm, hslot'⟩ := slot_of_slot_replaceNodes _ _ _ _ hslot'
    exact hs.sameAxis hn hm hslot hslot'

theorem SlotsExact.cleanThread {g g' : CriticalGraph} (hg : SlotsExact noStale g) (ho : g.Owned)
    {ts tid : ℕ} (h : cleanThread ts g tid = .ok g') : SlotsExact noStale g' where
  toSlotsSound := hg.toSlotsSound.cleanThread ho h
  held := by
    intro e edge hedge
    obtain ⟨g₁, hsweep, rfl⟩ := cleanThread_ok h
    have hs : SlotsExact (StaleSlots.ofNodes (g.staleNodes ts tid)) g₁ :=
      sweep_induction (P := SlotsExact) (fun _ _ _ _ _ hn hP => hP.cleanSlot hn)
        (ho.staleNodes_nodup ts tid) hg hsweep
    obtain ⟨out, hout, hfrom, hto, hslot, hslot'⟩ := hs.held hedge
    exact ⟨out, hout, not_false, not_false,
      by rw [slot_replaceNodes, if_neg (show edge.fromNode ∉ g.staleNodes ts tid from hfrom),
        hslot],
      by rw [slot_replaceNodes, if_neg (show edge.toNode ∉ g.staleNodes ts tid from hto), hslot']⟩

/-! ### Whole sweeps -/

theorem Owned.cleanup {g g' : CriticalGraph} (hg : g.Owned) {ts : ℕ} {order : List ℕ}
    (h : g.cleanup ts order = .ok g') : g'.Owned :=
  run_invariant (P := Owned) (fun _ _ _ _ ho hstep => ho.cleanThread hstep) hg h

theorem SlotsSound.cleanup {g g' : CriticalGraph} (hg : SlotsSound noStale g) (ho : g.Owned)
    {ts : ℕ} {order : List ℕ} (h : g.cleanup ts order = .ok g') : SlotsSound noStale g' :=
  (run_invariant (P := fun g => g.Owned ∧ SlotsSound noStale g)
    (fun _ _ _ _ hP hstep => ⟨hP.1.cleanThread hstep, hP.2.cleanThread hP.1 hstep⟩)
    ⟨ho, hg⟩ h).2

/-- The next slot of a sweep holds the id of an edge whose other end is alive. -/
theorem SlotsSound.cleanSlot_total {g g₁ : CriticalGraph} {stale : StaleSlots} {n : ℕ}
    {p : CriticalEdgePosition} {label : ℕ × ℕ} (hlabel : g.label n = some label)
    (hlive : ∀ p m, g.PointsTo n p m → ∃ label, g.label m = some label) (hn : ¬ stale n p)
    (h : SlotsSound stale g₁ ∧ Shrinks g g₁) :
    ∃ g₂, CriticalGraph.cleanSlot n g₁ p = .ok g₂ ∧
      SlotsSound (stale.insert n p) g₂ ∧ Shrinks g g₂ := by
  obtain ⟨hsound, hs⟩ := h
  have hlabel' : g₁.label n = some label := by rw [hs.label, hlabel]
  have hedges : ∀ e, g₁.slot n p = some e → ∃ edge label, g₁.edges e = some edge ∧
      g₁.label (edge.endpoint p.opposite) = some label := by
    intro e hslot
    obtain ⟨edge, hedge, -⟩ := hsound.stored hn hslot
    obtain ⟨far, hfar⟩ := hlive p _ ⟨e, edge, hs.slot hslot, hs.edges hedge, rfl⟩
    exact ⟨edge, far, hedge, by rw [hs.label, hfar]⟩
  obtain ⟨g₂, h₂⟩ := CriticalGraph.cleanSlot_total hlabel' hedges
  exact ⟨g₂, h₂, hsound.cleanSlot hn h₂, hs.cleanSlot h₂⟩

theorem SlotsSound.cleanNode_total {g g₀ : CriticalGraph} {stale : StaleSlots} {n : ℕ}
    {label : ℕ × ℕ} (hlabel : g.label n = some label)
    (hlive : ∀ p m, g.PointsTo n p m → ∃ label, g.label m = some label) (hn : ∀ p, ¬ stale n p)
    (h : SlotsSound stale g₀ ∧ Shrinks g g₀) : ∃ g₁, CriticalGraph.cleanNode g₀ n = .ok g₁ := by
  obtain ⟨g₁, h₁, hP₁⟩ := cleanSlot_total (p := .outVertical) hlabel hlive (hn _) h
  obtain ⟨g₂, h₂, hP₂⟩ := cleanSlot_total (p := .inVertical) hlabel hlive
    (by simp [StaleSlots.insert, hn]) hP₁
  obtain ⟨g₃, h₃, hP₃⟩ := cleanSlot_total (p := .outHorizontal) hlabel hlive
    (by simp [StaleSlots.insert, hn]) hP₂
  obtain ⟨g₄, h₄, -⟩ := cleanSlot_total (p := .inHorizontal) hlabel hlive
    (by simp [StaleSlots.insert, hn]) hP₃
  exact ⟨g₄, run_cons_eq_ok.mpr ⟨g₁, h₁, run_cons_eq_ok.mpr ⟨g₂, h₂, run_cons_eq_ok.mpr
    ⟨g₃, h₃, run_cons_eq_ok.mpr ⟨g₄, h₄, rfl⟩⟩⟩⟩⟩

/-- A sweep of nodes of one thread. The induction is on the nodes that are done, since their
slots are the stale ones. -/
theorem SlotsSound.sweep_total {g : CriticalGraph} (hg : SlotsSound noStale g) (ho : g.Owned)
    {tid : ℕ} {nodes : List ℕ} (hnodup : nodes.Nodup) (hmem : ∀ n ∈ nodes, n ∈ g.nodesOf tid)
    (hlive : ∀ n ∈ nodes, ∀ p m, g.PointsTo n p m → ∃ label, g.label m = some label) :
    ∃ g₁, nodes.foldlM cleanNode g = .ok g₁ := by
  induction nodes using List.reverseRecOn with
  | nil => exact ⟨g, rfl⟩
  | append_singleton nodes n ih =>
      obtain ⟨hnodup, -, hdisjoint⟩ := List.nodup_append.mp hnodup
      obtain ⟨g₀, h₀⟩ := ih hnodup (fun m hm => hmem m (List.mem_append_left _ hm))
        fun m hm => hlive m (List.mem_append_left _ hm)
      have hsound : SlotsSound (StaleSlots.ofNodes nodes) g₀ :=
        sweep_induction (P := SlotsSound) (fun _ _ _ _ _ hn hP => hP.cleanSlot hn) hnodup hg h₀
      have hn : ∀ p, ¬ StaleSlots.ofNodes nodes n p :=
        fun p hn => hdisjoint n hn n (List.mem_singleton_self n) rfl
      obtain ⟨g₁, h₁⟩ := cleanNode_total (ho.label_of_mem (hmem n (by simp))) (hlive n (by simp)) hn
        ⟨hsound, shrinks_sweep hnodup h₀⟩
      exact ⟨g₁, run_append_eq_ok.mpr ⟨g₀, h₀, run_cons_eq_ok.mpr ⟨g₁, h₁, rfl⟩⟩⟩

/-- When the slots of the stale nodes lead to nodes that are alive, a sweep meets no missing edge
and no freed node. -/
theorem SlotsSound.cleanThread_total {g : CriticalGraph} (hg : SlotsSound noStale g)
    (ho : g.Owned) {ts tid : ℕ}
    (hlive : ∀ n ∈ g.staleNodes ts tid, ∀ p m, g.PointsTo n p m →
      ∃ label, g.label m = some label) : ∃ g', CriticalGraph.cleanThread ts g tid = .ok g' := by
  obtain ⟨g₁, h₁⟩ := hg.sweep_total ho (ho.staleNodes_nodup ts tid)
    (fun n => mem_nodesOf_of_mem_staleNodes) hlive
  exact ⟨_, bind_eq_ok.mpr ⟨g₁, h₁, rfl⟩⟩

/-- When both slots of every edge hold its id, they all lead to nodes that are alive. -/
theorem SlotsExact.cleanThread_total {g : CriticalGraph} (hg : SlotsExact noStale g)
    (ho : g.Owned) (ts tid : ℕ) : ∃ g', CriticalGraph.cleanThread ts g tid = .ok g' := by
  apply hg.toSlotsSound.cleanThread_total ho
  rintro n - p m ⟨e, edge, hslot, hedge, rfl⟩
  exact label_of_slot (hg.far not_false hslot hedge)

theorem SlotsExact.cleanup_total {g : CriticalGraph} (hg : SlotsExact noStale g) (ho : g.Owned)
    (ts : ℕ) (order : List ℕ) :
    ∃ g', g.cleanup ts order = .ok g' ∧ g'.Owned ∧ SlotsExact noStale g' := by
  refine run_total (P := fun g : CriticalGraph => g.Owned ∧ SlotsExact noStale g) ?_ ⟨ho, hg⟩
  rintro tid - mid ⟨hmid, hexact⟩
  obtain ⟨mid', h⟩ := hexact.cleanThread_total hmid ts tid
  exact ⟨mid', h, hmid.cleanThread h, hexact.cleanThread hmid h⟩

/-! ### What becomes of one slot -/

section slot

variable {g g' : CriticalGraph} {n m e : ℕ} {p q : CriticalEdgePosition} {edge : CriticalEdge}

/-- Cleaning a slot that does not lead to `m` leaves an edge in a slot of `m`. -/
theorem SlotsSound.cleanSlot_keeps {stale : StaleSlots} (hg : SlotsSound stale g)
    (hn : ¬ stale n p) (hm : ¬ stale m q) (hne : ¬ (n = m ∧ p = q))
    (hapart : ¬ (p = q.opposite ∧ g.PointsTo n p m)) (hslot : g.slot m q = some e)
    (hedge : g.edges e = some edge) (h : CriticalGraph.cleanSlot n g p = .ok g') :
    g'.slot m q = some e ∧ g'.edges e = some edge := by
  rcases cleanSlot_ok h with ⟨-, rfl⟩ | ⟨e', edge', label, hslot', hedge', hlabel, rfl⟩
  · exact ⟨hslot, hedge⟩
  -- The erased edge is another one: it would be in a slot of `n` that leads to `m`.
  have hedges : e ≠ e' := by
    rintro rfl
    have hend := hg.endpoint_eq hm hslot hedge
    have hend' := hg.endpoint_eq hn hslot' hedge
    rcases hg.sameAxis hm hn hslot hslot' with rfl | rfl
    · exact hne ⟨hend'.symm.trans hend, rfl⟩
    · refine hapart ⟨rfl, e, edge, hslot', hedge, ?_⟩
      rwa [CriticalEdgePosition.opposite_opposite]
  constructor
  · rw [slot_dropEdge hlabel, if_neg, hslot]
    rintro ⟨hfar, rfl⟩
    exact hapart ⟨by simp, e', edge', hslot', hedge', hfar.symm⟩
  · rw [edges_dropEdge, update_of_ne hedges, hedge]

theorem Shrinks.pointsTo (hs : Shrinks g g') (h : g'.PointsTo n p m) : g.PointsTo n p m := by
  obtain ⟨e, edge, hslot, hedge, hfar⟩ := h
  exact ⟨e, edge, hs.slot hslot, hs.edges hedge, hfar⟩

/-- The sweep of nodes whose slots do not lead to `m` leaves an edge in a slot of `m`. -/
theorem SlotsSound.sweep_keeps (hg : SlotsSound noStale g) {nodes : List ℕ}
    (hnodup : nodes.Nodup) (hm : m ∉ nodes) (hapart : ∀ n ∈ nodes, ¬ g.PointsTo n q.opposite m)
    (hslot : g.slot m q = some e) (hedge : g.edges e = some edge)
    (h : nodes.foldlM cleanNode g = .ok g') : g'.slot m q = some e ∧ g'.edges e = some edge := by
  have hrun := sweep_induction (P := fun stale mid => (∀ n p, stale n p → n ∈ nodes) →
    SlotsSound stale mid ∧ Shrinks g mid ∧ mid.slot m q = some e ∧ mid.edges e = some edge)
    ?_ hnodup (fun _ => ⟨hg, Shrinks.refl g, hslot, hedge⟩) h
  · exact (hrun fun _ _ hn => hn).2.2
  · intro stale mid mid' n p hn hmid hclean hstale
    obtain ⟨hsound, hs, hslot, hedge⟩ := hmid fun n' p' hs => hstale n' p' (.inl hs)
    have hmem : n ∈ nodes := hstale n p (.inr ⟨rfl, rfl⟩)
    have hkept := hsound.cleanSlot_keeps hn (fun hs => hm (hstale m q (.inl hs)))
      (fun heq => hm (heq.1 ▸ hmem))
      (fun hpoints => hapart n hmem (hpoints.1 ▸ hs.pointsTo hpoints.2)) hslot hedge hclean
    exact ⟨hsound.cleanSlot hn hclean, hs.cleanSlot hclean, hkept⟩

/-- Cleaning a node clears the slots that its own slots lead to. -/
theorem SlotsSound.cleanNode_clears {stale : StaleSlots} (hg : SlotsSound stale g)
    (hn : ∀ p, ¬ stale n p) (hapart : ¬ g.PointsTo n p.opposite n) (hslot : g.slot n p = some e)
    (hedge : g.edges e = some edge) (h : CriticalGraph.cleanNode g n = .ok g') :
    g'.slot (edge.endpoint p.opposite) p.opposite = none := by
  obtain ⟨pre, post, hall, hpre⟩ : ∃ pre post,
      CriticalEdgePosition.all = pre ++ p :: post ∧ p ∉ pre := by
    cases p
    · exact ⟨[], _, rfl, by simp⟩
    · exact ⟨[.outVertical], _, rfl, by simp⟩
    · exact ⟨[.outVertical, .inVertical], _, rfl, by simp⟩
    · exact ⟨[.outVertical, .inVertical, .outHorizontal], _, rfl, by simp⟩
  rw [CriticalGraph.cleanNode, hall] at h
  obtain ⟨mid, hbefore, h⟩ := run_append_eq_ok.mp h
  obtain ⟨mid', hclean, hafter⟩ := run_cons_eq_ok.mp h
  -- the slots before it are other ones, and leave it alone
  have hnodup : pre.Nodup := (List.nodup_append.mp (hall ▸ show CriticalEdgePosition.all.Nodup by
    decide)).1
  have hmid := run_invariant_of_prefix
    (P := fun done mid => SlotsSound (fun m q => stale m q ∨ m = n ∧ q ∈ done) mid ∧
      Shrinks g mid ∧ mid.slot n p = some e ∧ mid.edges e = some edge) ?_ ?_ hbefore
  · obtain ⟨-, -, hslot, hedge⟩ := hmid
    have hcleared : mid'.slot (edge.endpoint p.opposite) p.opposite = none := by
      rcases cleanSlot_ok hclean with
        ⟨hnone, -⟩ | ⟨e', edge', label, hslot', hedge', hlabel, rfl⟩
      · rw [hslot] at hnone
        cases hnone
      · rw [hslot] at hslot'
        obtain rfl := Option.some.inj hslot'
        rw [hedge] at hedge'
        obtain rfl := Option.some.inj hedge'
        rw [slot_dropEdge hlabel, if_pos ⟨rfl, rfl⟩]
    have hs : Shrinks mid' g' :=
      run_invariant (P := Shrinks mid') (fun _ _ _ _ hs hstep => hs.cleanSlot hstep)
        (Shrinks.refl mid') hafter
    cases hlast : g'.slot (edge.endpoint p.opposite) p.opposite with
    | none => rfl
    | some e' =>
        rw [hs.slot hlast] at hcleared
        cases hcleared
  · simpa using ⟨hg, Shrinks.refl g, hslot, hedge⟩
  · intro done q post' mid mid' hsplit ⟨hsound, hs, hslot, hedge⟩ hstep
    have hqp : q ≠ p := fun heq => hpre (by rw [hsplit]; simp [heq])
    have hnew : ¬ (stale n q ∨ n = n ∧ q ∈ done) := by
      rintro (hs | ⟨-, hdone⟩)
      · exact hn q hs
      · rw [hsplit] at hnodup
        exact (List.nodup_append.mp hnodup).2.2 q hdone q List.mem_cons_self rfl
    have hleft : ¬ (stale n p ∨ n = n ∧ p ∈ done) := by
      rintro (hs | ⟨-, hdone⟩)
      · exact hn p hs
      · exact hpre (hsplit ▸ List.mem_append_left _ hdone)
    have hkept := hsound.cleanSlot_keeps hnew hleft (fun heq => hqp heq.2)
      (fun hpoints => hapart (hpoints.1 ▸ hs.pointsTo hpoints.2)) hslot hedge hstep
    refine ⟨?_, hs.cleanSlot hstep, hkept⟩
    have hinsert : (fun m q' => stale m q' ∨ m = n ∧ q' ∈ done ++ [q]) =
        StaleSlots.insert (fun m q' => stale m q' ∨ m = n ∧ q' ∈ done) n q := by
      funext m q'
      simp only [StaleSlots.insert, List.mem_append, List.mem_singleton, eq_iff_iff]
      tauto
    rw [hinsert]
    exact hsound.cleanSlot hnew hstep

/-- The sweep of a thread clears the slot that a slot of one of its stale nodes leads to, unless
it cleared that slot of the node before it came to it. -/
theorem SlotsSound.sweep_clears (hg : SlotsSound noStale g) {nodes : List ℕ}
    (hsorted : nodes.Pairwise (· < ·)) (hmem : n ∈ nodes)
    (hapart : ∀ m ∈ nodes, m ≤ n → ¬ g.PointsTo m p.opposite n) (hslot : g.slot n p = some e)
    (hedge : g.edges e = some edge) (h : nodes.foldlM cleanNode g = .ok g') :
    g'.slot (edge.endpoint p.opposite) p.opposite = none := by
  obtain ⟨pre, post, rfl⟩ := List.append_of_mem hmem
  obtain ⟨hpre, htail, hcross⟩ := List.pairwise_append.mp hsorted
  have hlt : ∀ m ∈ pre, m < n := fun m hm => hcross m hm n List.mem_cons_self
  obtain ⟨mid, hbefore, h⟩ := run_append_eq_ok.mp h
  obtain ⟨mid', hclean, hafter⟩ := run_cons_eq_ok.mp h
  have hnodup : pre.Nodup := hpre.imp fun hlt => ne_of_lt hlt
  have hn : n ∉ pre := fun hn => lt_irrefl n (hlt n hn)
  obtain ⟨hslot', hedge'⟩ := hg.sweep_keeps hnodup hn
    (fun m hm => hapart m (List.mem_append_left _ hm) (hlt m hm).le) hslot hedge hbefore
  have hsound : SlotsSound (StaleSlots.ofNodes pre) mid :=
    sweep_induction (P := SlotsSound) (fun _ _ _ _ _ hn hP => hP.cleanSlot hn) hnodup hg hbefore
  have hs := shrinks_sweep hnodup hbefore
  have hcleared := hsound.cleanNode_clears (fun _ => hn)
    (fun hpoints => hapart n hmem le_rfl (hs.pointsTo hpoints)) hslot' hedge' hclean
  have hs' := shrinks_sweep ((List.pairwise_cons.mp htail).2.imp fun hlt => ne_of_lt hlt) hafter
  cases hlast : g'.slot (edge.endpoint p.opposite) p.opposite with
  | none => rfl
  | some e' =>
      rw [hs'.slot hlast] at hcleared
      cases hcleared

end slot

end CriticalGraph

end TibeeCompare.Critical
