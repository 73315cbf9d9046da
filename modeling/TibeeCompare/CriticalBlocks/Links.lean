import TibeeCompare.CriticalBlocks.Consistency

/-!
The links between the nodes of a thread.

On the network thread a slot can be overwritten, and then slots and edges disagree. On all other
threads they agree about horizontal edges, whatever happens on the network thread: each such
edge is held by the slots of those of its endpoints that are still there. `Links` says this,
and that two nodes that follow each other on a thread are linked, unless the first of them
ended the thread.
-/

namespace TibeeCompare.Critical.CriticalGraph

open Function Runs

/-- A node that is there, on another thread than the network thread. -/
def OnThread (g : CriticalGraph) (n : ℕ) : Prop :=
  ∃ ts tid, g.label n = some (ts, tid) ∧ tid ≠ kNetworkThread

/-- The slots on the threads hold the ids of the horizontal edges. -/
def HeldOn (stale : StaleSlots) (g : CriticalGraph) : Prop :=
  ∀ e edge, g.edges e = some edge → edge.type ≠ .vertical →
    ∀ p : CriticalEdgePosition, p = .outHorizontal ∨ p = .inHorizontal →
      g.OnThread (edge.endpoint p) →
        ¬ stale (edge.endpoint p) p ∧ g.slot (edge.endpoint p) p = some e

/-- An id in a horizontal slot was written by `CreateHorizontalEdge`. -/
def HorizontalTyped (g : CriticalGraph) : Prop :=
  ∀ n e edge (p : CriticalEdgePosition), p = .outHorizontal ∨ p = .inHorizontal →
    g.slot n p = some e → g.edges e = some edge → edge.type ≠ .vertical

/-- A horizontal edge leads from one node to another, and the two have it in their slots. -/
def Joined (g : CriticalGraph) (n m : ℕ) : Prop :=
  ∃ e type, type ≠ CriticalEdgeType.vertical ∧ g.edges e = some ⟨type, n, m⟩ ∧
    g.slot n .outHorizontal = some e ∧ g.slot m .inHorizontal = some e

structure Links (ended : List ℕ) (g : CriticalGraph) : Prop where
  sound : SlotsSound noStale g
  /-- Edges are between nodes that were created. -/
  created : ∀ {e edge}, g.edges e = some edge → ∀ p, edge.endpoint p < g.nextNode
  typed : g.HorizontalTyped
  lastFree : g.LastFree
  held : g.HeldOn noStale
  linked : ∀ tid ≠ kNetworkThread, ∀ n m, [n, m] <:+: g.nodesOf tid → n ∈ ended ∨ g.Joined n m

theorem links_empty : Links [] empty where
  sound := slotsExact_empty.toSlotsSound
  created h := by cases h
  typed := by
    rintro n e edge p - h
    cases h
  lastFree := lastFree_empty
  held := by
    rintro e edge ⟨⟩
  linked := by
    rintro tid - n m h
    cases List.eq_nil_of_infix_nil h

theorem Links.setTimestamp {ended : List ℕ} {g : CriticalGraph} (h : Links ended g) (ts : ℕ) :
    Links ended (g.setTimestamp ts) :=
  ⟨⟨h.sound.stored, h.sound.sameAxis, h.sound.fresh⟩, h.created, h.typed, h.lastFree, h.held,
    h.linked⟩

theorem Links.mono {ended ended' : List ℕ} {g : CriticalGraph} (h : Links ended g)
    (hsubset : ended ⊆ ended') : Links ended' g :=
  ⟨h.sound, h.created, h.typed, h.lastFree, h.held, fun tid htid n m hnm =>
    (h.linked tid htid n m hnm).imp_left fun hn => hsubset hn⟩

/-- Two nodes that follow each other were there before, or the second one is new. -/
theorem infix_concat_pair {nodes : List ℕ} {last n m : ℕ} (h : [n, m] <:+: nodes ++ [last]) :
    [n, m] <:+: nodes ∨ nodes.getLast? = some n ∧ m = last := by
  rcases List.infix_concat_iff.mp h with hsuffix | hinfix
  · obtain ⟨pre, hpre⟩ := hsuffix
    rw [show pre ++ [n, m] = (pre ++ [n]) ++ [m] by simp] at hpre
    obtain ⟨rfl, hm⟩ := List.append_inj' hpre rfl
    right
    rw [List.getLast?_concat]
    exact ⟨rfl, List.singleton_inj.mp hm⟩
  · exact .inl hinfix

/-- A node that a slot is found on was created before the next one. -/
theorem Owned.ne_nextNode {g : CriticalGraph} (ho : g.Owned) {n e : ℕ} {p : CriticalEdgePosition}
    (h : g.slot n p = some e) : n ≠ g.nextNode := by
  obtain ⟨label, hlabel⟩ := label_of_slot h
  exact (ho.lt_next hlabel).ne

theorem OnThread.of_mem {g : CriticalGraph} (ho : g.Owned) {tid n : ℕ}
    (htid : tid ≠ kNetworkThread) (hn : n ∈ g.nodesOf tid) : g.OnThread n :=
  ⟨_, tid, ho.label_of_mem hn, htid⟩

/-- An edge is the one that was stored last, or was there before. -/
theorem stored_cases {edges : ℕ → Option CriticalEdge} {id e : ℕ} {stored edge : CriticalEdge}
    (h : update edges id (some stored) e = some edge) :
    e = id ∧ edge = stored ∨ e ≠ id ∧ edges e = some edge := by
  by_cases he : e = id
  · subst he
    rw [update_self] at h
    exact .inl ⟨rfl, (Option.some.inj h).symm⟩
  · rw [update_of_ne he] at h
    exact .inr ⟨he, h⟩

/-! ### New nodes -/

section newNode

variable {ended : List ℕ} {g : CriticalGraph} {tid : ℕ}

theorem Joined.createNode (ho : g.Owned) {n m : ℕ} (h : g.Joined n m) (tid : ℕ) :
    (g.createNode tid).1.Joined n m := by
  obtain ⟨e, type, htype, hedge, hout, hin⟩ := h
  exact ⟨e, type, htype, hedge, slot_createNode_of_slot ho hout, slot_createNode_of_slot ho hin⟩

/-- A node without a link is put on the network thread, or behind a node that ended its thread. -/
theorem Links.createNode (h : Links ended g) (ho : g.Owned)
    (hlast : tid ≠ kNetworkThread → ∀ last, g.getLastNodeForThread tid = some last → last ∈ ended) :
    Links ended (g.createNode tid).1 where
  sound := h.sound.createNode tid
  created hedge p := Nat.lt_succ_of_lt (h.created hedge p)
  typed n e edge p hp hslot := h.typed n e edge p hp (slot_of_slot_createNode hslot)
  lastFree := h.lastFree.createNode tid
  held := by
    rintro e edge hedge htype p hp ⟨ts, t, hlabel, ht⟩
    rw [label_createNode, update_of_ne (h.created hedge p).ne] at hlabel
    obtain ⟨-, hslot⟩ := h.held e edge hedge htype p hp ⟨ts, t, hlabel, ht⟩
    exact ⟨not_false, slot_createNode_of_slot ho hslot⟩
  linked := by
    intro t ht n m hnm
    rw [nodesOf_createNode] at hnm
    by_cases hsame : t = tid
    · subst hsame
      rw [update_self] at hnm
      rcases infix_concat_pair hnm with hold | ⟨hn, -⟩
      · exact (h.linked t ht n m hold).imp_right fun hjoined => hjoined.createNode ho t
      · exact .inl (hlast ht n hn)
    · rw [update_of_ne hsame] at hnm
      exact (h.linked t ht n m hnm).imp_right fun hjoined => hjoined.createNode ho tid

variable {type : CriticalEdgeType} {prev ts : ℕ}

/-- A node on a thread that is extended from `prev` has no outgoing edge if it is `prev`. -/
theorem Links.free_of_onThread (h : Links ended g) (hprev : g.label prev = some (ts, tid))
    (hlast : tid ≠ kNetworkThread → g.getLastNodeForThread tid = some prev)
    (hon : g.OnThread prev) : g.slot prev .outHorizontal = none := by
  obtain ⟨ts', t, hlabel, ht⟩ := hon
  rw [hprev] at hlabel
  obtain rfl := (Prod.mk.inj (Option.some.inj hlabel)).2
  exact h.lastFree tid prev (hlast ht)

/-- An extension leaves the slots on the threads that were taken. -/
theorem Links.slot_extend_of_slot (h : Links ended g) (ho : g.Owned)
    (hprev : g.label prev = some (ts, tid))
    (hlast : tid ≠ kNetworkThread → g.getLastNodeForThread tid = some prev) {n e : ℕ}
    {p : CriticalEdgePosition} (hn : g.OnThread n) (hslot : g.slot n p = some e) :
    (g.extend type prev tid).slot n p = some e := by
  have hne := ho.ne_nextNode hslot
  rw [slot_extend type tid ho hprev, if_neg, if_neg hne, hslot]
  rintro (⟨hnew, -⟩ | ⟨rfl, rfl⟩)
  · exact hne hnew
  · rw [h.free_of_onThread hprev hlast hn] at hslot
    cases hslot

theorem created_extend (h : Links ended g) (hlt : prev < g.nextNode) {e : ℕ} {edge : CriticalEdge}
    (hedge : (g.extend type prev tid).edges e = some edge) (p : CriticalEdgePosition) :
    edge.endpoint p < (g.extend type prev tid).nextNode := by
  rw [nextNode_extend]
  rcases stored_cases hedge with ⟨-, rfl⟩ | ⟨-, hold⟩
  · cases p
    · exact Nat.lt_succ_of_lt hlt
    · exact Nat.lt_succ_self _
    · exact Nat.lt_succ_of_lt hlt
    · exact Nat.lt_succ_self _
  · exact Nat.lt_succ_of_lt (h.created hold p)

theorem HorizontalTyped.extend (h : g.HorizontalTyped) (ho : g.Owned)
    (hprev : g.label prev = some (ts, tid)) (htype : type ≠ .vertical) :
    (g.extend type prev tid).HorizontalTyped := by
  intro n e edge p hp hslot hedge
  rcases stored_cases hedge with ⟨-, rfl⟩ | ⟨hne, hold⟩
  · exact htype
  · rw [slot_extend type tid ho hprev] at hslot
    split at hslot
    · exact absurd (Option.some.inj hslot).symm hne
    · split at hslot
      · cases hslot
      · exact h n e edge p hp hslot hold

/-- The two nodes of an extension have its edge in their slots. -/
theorem joined_extend (ho : g.Owned) (hprev : g.label prev = some (ts, tid))
    (htype : type ≠ .vertical) : (g.extend type prev tid).Joined prev g.nextNode := by
  refine ⟨g.nextEdgeId, type, htype, by rw [edges_extend, update_self], ?_, ?_⟩
  · rw [slot_extend type tid ho hprev, if_pos (.inr ⟨rfl, rfl⟩)]
  · rw [slot_extend type tid ho hprev, if_pos (.inl ⟨rfl, rfl⟩)]

section

variable (h : Links ended g) (ho : g.Owned) (hprev : g.label prev = some (ts, tid))
  (hlast : tid ≠ kNetworkThread → g.getLastNodeForThread tid = some prev)
include h ho hprev hlast

theorem Links.held_extend : (g.extend type prev tid).HeldOn noStale := by
  rintro e edge hedge hedgeType p hp ⟨ts', t, hlabel, ht⟩
  refine ⟨not_false, ?_⟩
  rcases stored_cases hedge with ⟨rfl, rfl⟩ | ⟨-, hold⟩
  · rw [slot_extend type tid ho hprev, if_pos]
    · rfl
    · rcases hp with rfl | rfl
      · exact .inr ⟨rfl, rfl⟩
      · exact .inl ⟨rfl, rfl⟩
  · rw [label_extend, update_of_ne (h.created hold p).ne] at hlabel
    obtain ⟨-, hslot⟩ := h.held e edge hold hedgeType p hp ⟨ts', t, hlabel, ht⟩
    exact h.slot_extend_of_slot ho hprev hlast ⟨ts', t, hlabel, ht⟩ hslot

/-- An extension leaves the links of the threads. -/
theorem Links.joined_extend_of_joined {t n m : ℕ} (ht : t ≠ kNetworkThread)
    (hnm : [n, m] <:+: g.nodesOf t) (hjoined : g.Joined n m) :
    (g.extend type prev tid).Joined n m := by
  obtain ⟨e, type', htype', hedge, hout, hin⟩ := hjoined
  have hn := OnThread.of_mem ho ht (hnm.subset List.mem_cons_self)
  have hm := OnThread.of_mem ho ht (hnm.subset (List.mem_cons_of_mem _ List.mem_cons_self))
  refine ⟨e, type', htype', ?_, h.slot_extend_of_slot ho hprev hlast hn hout,
    h.slot_extend_of_slot ho hprev hlast hm hin⟩
  rw [edges_extend, update_of_ne (h.sound.fresh hedge).ne, hedge]

theorem Links.extend (htype : type ≠ .vertical) : Links ended (g.extend type prev tid) where
  sound := by
    refine (h.sound.createNode tid).withEdge ⟨type, prev, g.nextNode⟩ (.inr rfl)
      (?_ : _ = some (ts, tid)) (?_ : _ = some (g.ts, tid))
    · rw [label_createNode, update_of_ne (ho.lt_next hprev).ne, hprev]
    · rw [label_createNode, update_self]
  created := created_extend h (ho.lt_next hprev)
  typed := h.typed.extend ho hprev htype
  lastFree := h.lastFree.extend ho hprev type
  held := h.held_extend ho hprev hlast
  linked := by
    intro t ht n m hnm
    rw [nodesOf_extend] at hnm
    by_cases hsame : t = tid
    · subst hsame
      rw [update_self] at hnm
      rcases infix_concat_pair hnm with hold | ⟨hn, rfl⟩
      · exact (h.linked t ht n m hold).imp_right
          (h.joined_extend_of_joined ho hprev hlast ht hold)
      · have hn' : g.getLastNodeForThread t = some n := hn
        rw [hlast ht] at hn'
        obtain rfl := Option.some.inj hn'
        exact .inr (joined_extend ho hprev htype)
    · rw [update_of_ne hsame] at hnm
      exact (h.linked t ht n m hnm).imp_right (h.joined_extend_of_joined ho hprev hlast ht hnm)

end

end newNode

/-! ### Wake-ups -/

/-- A wake-up leaves horizontal edges alone. -/
theorem Links.wakeUp {ended : List ℕ} {g : CriticalGraph} (h : Links ended g) (ho : g.Owned)
    {n m : ℕ} {label label' : ℕ × ℕ} (hn : g.label n = some label) (hm : g.label m = some label') :
    Links ended (g.withEdge ⟨.vertical, n, m⟩ .outVertical) := by
  have hslot : ∀ k (p : CriticalEdgePosition), p = .outHorizontal ∨ p = .inHorizontal →
      (g.withEdge ⟨.vertical, n, m⟩ .outVertical).slot k p = g.slot k p := by
    rintro k p (rfl | rfl) <;>
      rw [slot_withEdge _ hn hm] <;>
      simp [CriticalEdgePosition.opposite]
  refine ⟨h.sound.withEdge _ (.inl rfl) hn hm, ?_, ?_, ?_, ?_, ?_⟩
  · intro e edge hedge p
    rw [nextNode_withEdge]
    rcases stored_cases hedge with ⟨-, rfl⟩ | ⟨-, hold⟩
    · cases p
      · exact ho.lt_next hn
      · exact ho.lt_next hm
      · exact ho.lt_next hn
      · exact ho.lt_next hm
    · exact h.created hold p
  · intro k e edge p hp hk hedge
    rw [hslot k p hp] at hk
    rw [edges_withEdge_of_lt (h.sound.lt_nextEdgeId hk)] at hedge
    exact h.typed k e edge p hp hk hedge
  · intro tid last hlast
    rw [hslot last _ (.inl rfl)]
    exact h.lastFree tid last hlast
  · rintro e edge hedge htype p hp ⟨ts, t, hlabel, ht⟩
    rw [label_withEdge] at hlabel
    rw [hslot _ p hp]
    rcases stored_cases hedge with ⟨-, rfl⟩ | ⟨-, hold⟩
    · exact absurd rfl htype
    · exact h.held e edge hold htype p hp ⟨ts, t, hlabel, ht⟩
  · intro tid htid k k' hk
    refine (h.linked tid htid k k' hk).imp_right ?_
    rintro ⟨e, type, htype, hedge, hout, hin⟩
    refine ⟨e, type, htype, ?_, ?_, ?_⟩
    · rw [edges_withEdge_of_lt (h.sound.fresh hedge), hedge]
    · rw [hslot k _ (.inl rfl), hout]
    · rw [hslot k' _ (.inr rfl), hin]

/-! ### Cleanups -/

section cleanup

variable {ended : List ℕ} {g g' : CriticalGraph} {ts tid : ℕ}

theorem HorizontalTyped.of_shrinks (h : g.HorizontalTyped) (hs : Shrinks g g') :
    g'.HorizontalTyped :=
  fun n e edge p hp hslot hedge => h n e edge p hp (hs.slot hslot) (hs.edges hedge)

/-- Cleaning a slot erases the edge that it holds, which is the only one there. -/
theorem HeldOn.cleanSlot {stale : StaleSlots} {n : ℕ} {p : CriticalEdgePosition}
    (htyped : g.HorizontalTyped) (hsound : SlotsSound stale g) (hn : ¬ stale n p)
    (h : g.HeldOn stale) (hclean : cleanSlot n g p = .ok g') : g'.HeldOn (stale.insert n p) := by
  rintro e edge hedge htype q hq ⟨nodeTs, t, hlabel, ht⟩
  rcases cleanSlot_ok hclean with ⟨hnone, rfl⟩ | ⟨e₀, edge₀, label, hslot₀, hedge₀, hfar, rfl⟩
  · obtain ⟨hfresh, hslot⟩ := h e edge hedge htype q hq ⟨nodeTs, t, hlabel, ht⟩
    refine ⟨?_, hslot⟩
    rintro (hstale | ⟨hnode, rfl⟩)
    · exact hfresh hstale
    · rw [hnode, hnone] at hslot
      cases hslot
  · rw [label_dropEdge] at hlabel
    rw [edges_dropEdge] at hedge
    by_cases he : e = e₀
    · subst he
      rw [update_self] at hedge
      cases hedge
    rw [update_of_ne he] at hedge
    have hon : g.OnThread (edge.endpoint q) := ⟨nodeTs, t, hlabel, ht⟩
    obtain ⟨hfresh, hslot⟩ := h e edge hedge htype q hq hon
    constructor
    · rintro (hstale | ⟨hnode, rfl⟩)
      · exact hfresh hstale
      · rw [hnode, hslot₀] at hslot
        exact he (Option.some.inj hslot).symm
    · rw [slot_dropEdge hfar, if_neg, hslot]
      rintro ⟨hnode, rfl⟩
      -- The cleared slot is on a thread, so that it held the erased edge.
      have hp : p = .outHorizontal ∨ p = .inHorizontal := by
        cases p <;> simp_all [CriticalEdgePosition.opposite]
      rw [hnode] at hon hslot
      have htype₀ := htyped n e₀ edge₀ p hp hslot₀ hedge₀
      obtain ⟨-, hslot'⟩ := h e₀ edge₀ hedge₀ htype₀ _ hq hon
      rw [hslot'] at hslot
      exact he (Option.some.inj hslot).symm

/-- What a sweep over the older nodes of a thread keeps of the horizontal edges. -/
theorem Links.sweep (h : Links ended g) {nodes : List ℕ} (hnodup : nodes.Nodup)
    (hsweep : nodes.foldlM cleanNode g = .ok g') :
    Shrinks g g' ∧ SlotsSound (.ofNodes nodes) g' ∧ g'.HeldOn (.ofNodes nodes) := by
  refine sweep_induction
    (P := fun stale mid => Shrinks g mid ∧ SlotsSound stale mid ∧ mid.HeldOn stale) ?_ hnodup
    ⟨Shrinks.refl g, h.sound, h.held⟩ hsweep
  rintro stale mid mid' n p hn ⟨hs, hsound, hheld⟩ hclean
  exact ⟨hs.cleanSlot hclean, hsound.cleanSlot hn hclean,
    HeldOn.cleanSlot (h.typed.of_shrinks hs) hsound hn hheld hclean⟩

/-- A sweep keeps the edges that it comes to neither endpoint of. -/
theorem SlotsSound.sweep_edge (h : SlotsSound noStale g) {nodes : List ℕ} (hnodup : nodes.Nodup)
    {e : ℕ} {edge : CriticalEdge} (hedge : g.edges e = some edge)
    (hends : ∀ p, edge.endpoint p ∉ nodes) (hsweep : nodes.foldlM cleanNode g = .ok g') :
    g'.edges e = some edge := by
  have hrun := sweep_induction (P := fun stale mid => SlotsSound stale mid ∧
    ((∀ p, ¬ stale (edge.endpoint p) p) → mid.edges e = some edge)) ?_ hnodup
    ⟨h, fun _ => hedge⟩ hsweep
  · exact hrun.2 hends
  · rintro stale mid mid' n p hn ⟨hsound, hkept⟩ hclean
    refine ⟨hsound.cleanSlot hn hclean, fun hstale => ?_⟩
    have hedge := hkept fun q hq => hstale q (.inl hq)
    rcases cleanSlot_ok hclean with ⟨-, rfl⟩ | ⟨e₀, edge₀, label, hslot₀, hedge₀, -, rfl⟩
    · exact hedge
    · have hne : e ≠ e₀ := by
        rintro rfl
        rw [hedge] at hedge₀
        obtain rfl := Option.some.inj hedge₀
        have hend := hsound.endpoint_eq hn hslot₀ hedge
        exact hstale p (.inr ⟨hend, rfl⟩)
      rw [edges_dropEdge, update_of_ne hne, hedge]

theorem Links.cleanThread (h : Links ended g) (ho : g.Owned)
    (hclean : CriticalGraph.cleanThread ts g tid = .ok g') : Links ended g' := by
  have hbelow := below_cleanThread ho hclean
  have hsound := h.sound.cleanThread ho hclean
  have ho' := ho.cleanThread hclean
  obtain ⟨swept, hsweep, rfl⟩ := cleanThread_ok hclean
  have hnodup := ho.staleNodes_nodup ts tid
  obtain ⟨hs, -, hheld⟩ := h.sweep hnodup hsweep
  have hheld' : (swept.replaceNodes tid (g.staleNodes ts tid) (g.keptNodes ts tid)).HeldOn
      noStale := by
    rintro e edge hedge htype p hp ⟨nodeTs, t, hlabel, ht⟩
    obtain ⟨hn, hlabel⟩ := label_of_label_replaceNodes _ _ _ _ hlabel
    obtain ⟨-, hslot⟩ := hheld e edge hedge htype p hp ⟨nodeTs, t, hlabel, ht⟩
    exact ⟨not_false, by rw [slot_replaceNodes, if_neg hn, hslot]⟩
  refine ⟨hsound, ?_, ?_, h.lastFree.of_below hbelow, hheld', ?_⟩
  · intro e edge hedge p
    rw [hbelow.nextNode]
    exact h.created (hbelow.edges hedge) p
  · exact fun n e edge p hp hslot hedge =>
      h.typed n e edge p hp (hbelow.slot hslot) (hbelow.edges hedge)
  · intro t ht n m hnm
    have hn := hnm.subset List.mem_cons_self
    have hm := hnm.subset (List.mem_cons_of_mem _ List.mem_cons_self)
    refine (h.linked t ht n m (hnm.trans hbelow.nodesOf.isInfix)).imp_right ?_
    rintro ⟨e, type, htype, hedge, -, -⟩
    have hends : ∀ p, (⟨type, n, m⟩ : CriticalEdge).endpoint p ∉ g.staleNodes ts tid := by
      have hn' := (label_of_label_replaceNodes _ _ _ _ (ho'.label_of_mem hn)).1
      have hm' := (label_of_label_replaceNodes _ _ _ _ (ho'.label_of_mem hm)).1
      intro p
      cases p <;> assumption
    have hedge' := h.sound.sweep_edge hnodup hedge hends hsweep
    exact ⟨e, type, htype, hedge',
      (hheld' e _ hedge' htype .outHorizontal (.inl rfl) (OnThread.of_mem ho' ht hn)).2,
      (hheld' e _ hedge' htype .inHorizontal (.inr rfl) (OnThread.of_mem ho' ht hm)).2⟩

theorem Links.cleanup (h : Links ended g) (ho : g.Owned) {order : List ℕ}
    (hclean : g.cleanup ts order = .ok g') : Links ended g' :=
  (run_invariant (P := fun mid => mid.Owned ∧ Links ended mid)
    (fun _ _ _ _ hmid hstep => ⟨hmid.1.cleanThread hstep, hmid.2.cleanThread hmid.1 hstep⟩)
    ⟨ho, h⟩ hclean).2

end cleanup

/-! ### One edge -/

/-- Exactly one horizontal edge leads from a node, and to another: the one between the two. -/
def JoinedOnce (g : CriticalGraph) (n m : ℕ) : Prop :=
  ∃ e type, type ≠ CriticalEdgeType.vertical ∧ g.edges e = some ⟨type, n, m⟩ ∧
    g.slot n .outHorizontal = some e ∧ g.slot m .inHorizontal = some e ∧
    ∀ e' edge, g.edges e' = some edge → edge.type ≠ .vertical →
      edge.fromNode = n ∨ edge.toNode = m → e' = e

theorem Links.joinedOnce {ended : List ℕ} {g : CriticalGraph} (h : Links ended g) {n m : ℕ}
    (hn : g.OnThread n) (hm : g.OnThread m) (hjoined : g.Joined n m) : g.JoinedOnce n m := by
  obtain ⟨e, type, htype, hedge, hout, hin⟩ := hjoined
  refine ⟨e, type, htype, hedge, hout, hin, ?_⟩
  rintro e' edge hedge' htype' (rfl | rfl)
  · obtain ⟨-, hslot⟩ := h.held e' edge hedge' htype' .outHorizontal (.inl rfl) hn
    exact Option.some.inj (hslot.symm.trans hout)
  · obtain ⟨-, hslot⟩ := h.held e' edge hedge' htype' .inHorizontal (.inr rfl) hm
    exact Option.some.inj (hslot.symm.trans hin)

end TibeeCompare.Critical.CriticalGraph
