import TibeeCompare.Critical.Threads

/-!
What a cleanup leaves of the slots.

A sweep clears the slots that the slots of the older nodes lead to, whatever these slots hold by
then. In a graph with overwritten slots it may clear the slot of another edge, leave an edge to a
node that it frees, or come to a slot that leads to a node that was freed before. `Firm` says of
a slot that it is not cleared in this way, `Sweepable` of a graph that no freed node is written
to, and `Spares` puts together what is left.
-/

namespace TibeeCompare.Critical

open Runs

namespace CriticalGraph

def SameThread (g : CriticalGraph) (n m : ℕ) : Prop :=
  (g.label n).map Prod.snd = (g.label m).map Prod.snd

/-- No sweep of another node clears the slot before the sweep comes to it: an older node whose
opposite slot leads to it holds the same edge, or stands behind it on its thread. -/
def Firm (g : CriticalGraph) (cutoff n : ℕ) (p : CriticalEdgePosition) : Prop :=
  ∀ m, g.PointsTo m p.opposite n → g.tsOf m < cutoff →
    g.slot m p.opposite = g.slot n p ∨ (n < m ∧ g.SameThread m n)

/-- The slots of the older nodes lead to allocated nodes, and where they lead to an older node of
another thread, the sweep of that thread clears them. -/
def Sweepable (g : CriticalGraph) (cutoff : ℕ) : Prop :=
  ∀ n p m, g.PointsTo n p m → g.tsOf n < cutoff → (∃ label, g.label m = some label) ∧
    (g.tsOf m < cutoff → ¬ g.SameThread n m → ∃ k, g.SameThread k m ∧ g.tsOf k < cutoff ∧
      g.PointsTo k p.opposite n ∧ g.Firm cutoff k p.opposite)

section below

variable {g g' : CriticalGraph} {n m : ℕ} {p : CriticalEdgePosition}

theorem pointsTo_iff : g.PointsTo n p m ↔
    ((g.slot n p).bind g.edges).map (fun edge => edge.endpoint p.opposite) = some m := by
  simp [PointsTo, Option.map_eq_some_iff, Option.bind_eq_some_iff]

instance : Decidable (g.PointsTo n p m) :=
  decidable_of_iff _ pointsTo_iff.symm

theorem PointsTo.exists_label (h : g.PointsTo n p m) : ∃ label, g.label n = some label := by
  obtain ⟨e, edge, hslot, -⟩ := h
  exact label_of_slot hslot

theorem Below.tsOf (hb : Below g' g) {label : ℕ × ℕ} (h : g'.label n = some label) :
    g'.tsOf n = g.tsOf n := by
  rw [tsOf_of_label h, tsOf_of_label (hb.label h)]

theorem Below.label_eq (hb : Below g' g) {label : ℕ × ℕ} (h : g'.label n = some label) :
    g'.label n = g.label n := by
  rw [h, hb.label h]

theorem Below.pointsTo (hb : Below g' g) (h : g'.PointsTo n p m) : g.PointsTo n p m := by
  obtain ⟨e, edge, hslot, hedge, hfar⟩ := h
  exact ⟨e, edge, hb.slot hslot, hb.edges hedge, hfar⟩

theorem Below.slot_eq (hb : Below g' g) (h : g'.PointsTo n p m) : g'.slot n p = g.slot n p := by
  obtain ⟨e, edge, hslot, -⟩ := h
  rw [hslot, hb.slot hslot]

theorem Below.slot_none (hb : Below g' g) (h : g.slot n p = none) : g'.slot n p = none := by
  cases hslot : g'.slot n p with
  | none => rfl
  | some e =>
      rw [hb.slot hslot] at h
      cases h

theorem Below.sameThread (hb : Below g' g) {label label' : ℕ × ℕ} (hn : g'.label n = some label)
    (hm : g'.label m = some label') : g'.SameThread n m ↔ g.SameThread n m := by
  rw [SameThread, SameThread, hb.label_eq hn, hb.label_eq hm]

theorem TimeOrdered.of_below (h : g.TimeOrdered) (hb : Below g' g) (ho : g'.Owned) :
    g'.TimeOrdered := by
  intro t
  refine ((h t).sublist hb.nodesOf.sublist).imp_of_mem fun hn hm hle => ?_
  rwa [hb.tsOf (ho.label_of_mem hn), hb.tsOf (ho.label_of_mem hm)]

theorem Firm.of_below {cutoff : ℕ} (h : g.Firm cutoff n p) (hb : Below g' g)
    {far : ℕ} (hn : g'.PointsTo n p far) : g'.Firm cutoff n p := by
  intro m hm hlt
  obtain ⟨label, hlabel⟩ := hm.exists_label
  rw [hb.tsOf hlabel] at hlt
  rw [hb.slot_eq hm, hb.slot_eq hn, hb.sameThread hlabel hn.exists_label.choose_spec]
  exact h m (hb.pointsTo hm) hlt

/-- An older node that leads to a firm slot is at the other end, or behind. -/
theorem Firm.eq_or_behind {cutoff far : ℕ} (h : g.Firm cutoff n p) (hg : SlotsSound noStale g)
    (hn : g.PointsTo n p far) (hm : g.PointsTo m p.opposite n) (hlt : g.tsOf m < cutoff) :
    m = far ∨ (n < m ∧ g.SameThread m n) := by
  rcases h m hm hlt with heq | hbehind
  · obtain ⟨e, edge, hslot, hedge, rfl⟩ := hn
    rw [hslot] at heq
    exact .inl (hg.endpoint_eq not_false heq hedge).symm
  · exact .inr hbehind

end below

/-! ### One thread -/

/-- Of a list in the order of time, no older value is left behind the first that is not older. -/
theorem le_of_mem_dropWhile {ts : ℕ} {nodes : List ℕ} {tsOf : ℕ → ℕ}
    (hordered : nodes.Pairwise fun n m => tsOf n ≤ tsOf m) {n : ℕ}
    (hn : n ∈ nodes.dropWhile fun n => tsOf n < ts) : ts ≤ tsOf n := by
  induction nodes with
  | nil => cases hn
  | cons m nodes ih =>
      obtain ⟨hm, hordered⟩ := List.pairwise_cons.mp hordered
      by_cases hlt : tsOf m < ts
      · rw [List.dropWhile_cons_of_pos (by simpa using hlt)] at hn
        exact ih hordered hn
      · rw [List.dropWhile_cons_of_neg (by simpa using hlt)] at hn
        have hle := not_lt.mp hlt
        rcases List.mem_cons.mp hn with rfl | hn
        · exact hle
        · exact hle.trans (hm n hn)

section thread

variable {g g' : CriticalGraph} {ts tid n m e : ℕ} {p q : CriticalEdgePosition}
  {edge : CriticalEdge}

theorem TimeOrdered.mem_staleNodes (h : g.TimeOrdered) :
    n ∈ g.staleNodes ts tid ↔ n ∈ g.nodesOf tid ∧ g.tsOf n < ts := by
  constructor
  · intro hn
    exact ⟨mem_nodesOf_of_mem_staleNodes hn, by simpa using List.mem_takeWhile_imp hn⟩
  · rintro ⟨hn, hlt⟩
    rw [← g.staleNodes_append_keptNodes ts tid, List.mem_append] at hn
    exact hn.resolve_right fun hkept => absurd (le_of_mem_dropWhile (h tid) hkept) (not_le.mpr hlt)

theorem SlotsSound.cleanThread_keeps (hg : SlotsSound noStale g) (ho : g.Owned)
    (hm : m ∉ g.staleNodes ts tid)
    (hapart : ∀ n ∈ g.staleNodes ts tid, ¬ g.PointsTo n q.opposite m) (hslot : g.slot m q = some e)
    (hedge : g.edges e = some edge) (h : CriticalGraph.cleanThread ts g tid = .ok g') :
    g'.slot m q = some e ∧ g'.edges e = some edge := by
  obtain ⟨g₁, hsweep, rfl⟩ := cleanThread_ok h
  obtain ⟨hslot', hedge'⟩ :=
    hg.sweep_keeps (ho.staleNodes_nodup ts tid) hm hapart hslot hedge hsweep
  rw [slot_replaceNodes, if_neg hm]
  exact ⟨hslot', hedge'⟩

theorem SlotsSound.cleanThread_clears (hg : SlotsSound noStale g) (ho : g.Owned)
    (hn : n ∈ g.staleNodes ts tid)
    (hapart : ∀ m ∈ g.staleNodes ts tid, m ≤ n → ¬ g.PointsTo m p.opposite n)
    (hslot : g.slot n p = some e) (hedge : g.edges e = some edge)
    (h : CriticalGraph.cleanThread ts g tid = .ok g') :
    g'.slot (edge.endpoint p.opposite) p.opposite = none := by
  obtain ⟨g₁, hsweep, rfl⟩ := cleanThread_ok h
  have hsorted : (g.staleNodes ts tid).Pairwise (· < ·) :=
    (ho.sorted tid).sublist (List.takeWhile_sublist _)
  have hcleared := hg.sweep_clears hsorted hn hapart hslot hedge hsweep
  rw [slot_replaceNodes, hcleared, ite_self]

/-- Nodes of other threads are left. -/
theorem Owned.label_cleanThread_of_ne (ho : g.Owned) {t nodeTs : ℕ}
    (hn : g.label n = some (nodeTs, t)) (ht : t ≠ tid)
    (h : CriticalGraph.cleanThread ts g tid = .ok g') : g'.label n = some (nodeTs, t) := by
  rw [ho.label_cleanThread h, if_neg, hn]
  intro hstale
  rw [ho.label_of_mem (mem_nodesOf_of_mem_staleNodes hstale)] at hn
  exact ht (Prod.mk.inj (Option.some.inj hn)).2.symm

/-- What is left of an older node after the sweep of a thread is on another thread. -/
theorem TimeOrdered.ne_of_cleanThread (hordered : g.TimeOrdered) (ho : g.Owned) {nodeTs t : ℕ}
    (h : CriticalGraph.cleanThread ts g tid = .ok g') (hn : g'.label n = some (nodeTs, t))
    (hlt : nodeTs < ts) : t ≠ tid := by
  rintro rfl
  have hlabel := (below_cleanThread ho h).label hn
  have hstale : n ∈ g.staleNodes ts t :=
    hordered.mem_staleNodes.mpr ⟨ho.mem_nodesOf.mpr ⟨_, hlabel⟩, by rwa [tsOf_of_label hlabel]⟩
  rw [ho.label_cleanThread h, if_pos hstale] at hn
  cases hn

theorem SameThread.eq {t t' nodeTs nodeTs' : ℕ} (h : g.SameThread n m)
    (hn : g.label n = some (nodeTs, t)) (hm : g.label m = some (nodeTs', t')) : t = t' := by
  rw [SameThread, hn, hm] at h
  exact Option.some.inj h

theorem SameThread.exists_label {label : ℕ × ℕ} (h : g.SameThread n m)
    (hm : g.label m = some label) : ∃ nodeTs, g.label n = some (nodeTs, label.2) := by
  rw [SameThread, hm] at h
  obtain ⟨⟨nodeTs, t⟩, hn, heq⟩ := Option.map_eq_some_iff.mp h
  exact ⟨nodeTs, by rw [hn, show t = label.2 from heq]⟩

end thread

end CriticalGraph

/-! ### All threads -/

namespace CriticalGraph

/-- A graph that can be swept. -/
structure Cleanable (g : CriticalGraph) (cutoff : ℕ) : Prop where
  owned : g.Owned
  sound : SlotsSound noStale g
  timeOrdered : g.TimeOrdered
  sweepable : g.Sweepable cutoff

section sweeps

variable {g g' : CriticalGraph} {cutoff tid n m far : ℕ} {p : CriticalEdgePosition}

theorem Cleanable.mem_staleNodes (hg : g.Cleanable cutoff) {nodeTs : ℕ}
    (hn : g.label n = some (nodeTs, tid)) (hlt : g.tsOf n < cutoff) :
    n ∈ g.staleNodes cutoff tid :=
  hg.timeOrdered.mem_staleNodes.mpr ⟨hg.owned.mem_nodesOf.mpr ⟨nodeTs, hn⟩, hlt⟩

/-- Of two nodes of a thread, the one in front is not behind in time. -/
theorem Cleanable.stale_of_lt (hg : g.Cleanable cutoff) (hm : m ∈ g.staleNodes cutoff tid)
    (hlt : n < m) (hsame : g.SameThread m n) {label : ℕ × ℕ} (hn : g.label n = some label) :
    n ∈ g.staleNodes cutoff tid := by
  obtain ⟨hmem, hold⟩ := hg.timeOrdered.mem_staleNodes.mp hm
  have htid := hsame.eq (hg.owned.label_of_mem hmem) hn
  have hmem' : n ∈ g.nodesOf tid := hg.owned.mem_nodesOf.mpr ⟨label.1, by rw [hn, htid]⟩
  obtain ⟨pre, post, hsplit⟩ := List.append_of_mem hmem'
  have hsorted := hsplit ▸ hg.owned.sorted tid
  have hordered := hsplit ▸ hg.timeOrdered tid
  have hpost : m ∈ post := by
    rw [hsplit] at hmem
    rcases List.mem_append.mp hmem with hpre | hpost
    · have := (List.pairwise_append.mp hsorted).2.2 m hpre n List.mem_cons_self
      omega
    · rcases List.mem_cons.mp hpost with rfl | hpost
      · exact absurd hlt (lt_irrefl _)
      · exact hpost
  have hle := (List.pairwise_cons.mp (List.pairwise_append.mp hordered).2.1).1 m hpost
  exact hg.timeOrdered.mem_staleNodes.mpr ⟨hmem', hle.trans_lt hold⟩

/-- The sweep of a thread leaves the firm slots of other nodes that lead to other nodes. -/
theorem Cleanable.pointsTo_cleanThread (hg : g.Cleanable cutoff)
    (hn : n ∉ g.staleNodes cutoff tid) (hfar : far ∉ g.staleNodes cutoff tid)
    (hpoints : g.PointsTo n p far) (hfirm : g.Firm cutoff n p)
    (h : cleanThread cutoff g tid = .ok g') : g'.PointsTo n p far := by
  obtain ⟨e, edge, hslot, hedge, rfl⟩ := hpoints
  have hapart : ∀ m ∈ g.staleNodes cutoff tid, ¬ g.PointsTo m p.opposite n := by
    intro m hm hpoints
    rcases hfirm.eq_or_behind hg.sound ⟨e, edge, hslot, hedge, rfl⟩ hpoints
      (hg.timeOrdered.mem_staleNodes.mp hm).2 with rfl | ⟨hbehind, hsame⟩
    · exact hfar hm
    · obtain ⟨label, hlabel⟩ := label_of_slot hslot
      exact hn (hg.stale_of_lt hm hbehind hsame hlabel)
  obtain ⟨hslot', hedge'⟩ := hg.sound.cleanThread_keeps hg.owned hn hapart hslot hedge h
  exact ⟨e, edge, hslot', hedge', rfl⟩

/-- The sweep of a thread clears the slots that the firm slots of its older nodes lead to. -/
theorem Cleanable.slot_cleanThread (hg : g.Cleanable cutoff)
    (hn : n ∈ g.staleNodes cutoff tid) (hfar : far ∉ g.staleNodes cutoff tid)
    (hpoints : g.PointsTo n p far) (hfirm : g.Firm cutoff n p)
    (h : cleanThread cutoff g tid = .ok g') : g'.slot far p.opposite = none := by
  obtain ⟨e, edge, hslot, hedge, rfl⟩ := hpoints
  refine hg.sound.cleanThread_clears hg.owned hn ?_ hslot hedge h
  intro m hm hle hpoints
  rcases hfirm.eq_or_behind hg.sound ⟨e, edge, hslot, hedge, rfl⟩ hpoints
    (hg.timeOrdered.mem_staleNodes.mp hm).2 with rfl | ⟨hbehind, -⟩
  · exact hfar hm
  · exact absurd hle (not_le.mpr hbehind)

/-- The sweep of one thread leaves what the sweeps of the others come to. -/
theorem Cleanable.sweepable_cleanThread (hg : g.Cleanable cutoff)
    (h : cleanThread cutoff g tid = .ok g') : g'.Sweepable cutoff := by
  have hb := below_cleanThread hg.owned h
  have hleft : ∀ {k label}, g'.label k = some label → k ∉ g.staleNodes cutoff tid := by
    intro k label hk hmem
    rw [hg.owned.label_cleanThread h, if_pos hmem] at hk
    cases hk
  intro n p m hpoints hlt
  have hold := hb.pointsTo hpoints
  obtain ⟨⟨nodeTs, t⟩, hn'⟩ := hpoints.exists_label
  have hn := hb.label hn'
  rw [hb.tsOf hn'] at hlt
  obtain ⟨⟨label, hm⟩, hfreed⟩ := hg.sweepable n p m hold hlt
  have hlive : ∃ label, g'.label m = some label := by
    by_cases hmem : m ∈ g.staleNodes cutoff tid
    · -- a node that this sweep frees had the slot cleared before
      obtain ⟨hmem', hmlt⟩ := hg.timeOrdered.mem_staleNodes.mp hmem
      have hm := hg.owned.label_of_mem hmem'
      have hapart : ¬ g.SameThread n m := by
        intro hsame
        obtain rfl := hsame.eq hn hm
        exact hleft hn' (hg.mem_staleNodes hn hlt)
      obtain ⟨k, hsame, hklt, hkpoints, hfirm⟩ := hfreed hmlt hapart
      obtain ⟨kts, hk⟩ := hsame.exists_label hm
      have hclear := hg.slot_cleanThread (hg.mem_staleNodes hk hklt) (hleft hn') hkpoints hfirm h
      obtain ⟨e, -, hslot, -⟩ := hpoints
      rw [CriticalEdgePosition.opposite_opposite, hslot] at hclear
      cases hclear
    · exact ⟨label, by rw [hg.owned.label_cleanThread h, if_neg hmem, hm]⟩
  refine ⟨hlive, fun hmlt hapart => ?_⟩
  obtain ⟨⟨mts, t'⟩, hm'⟩ := hlive
  rw [hb.sameThread hn' hm'] at hapart
  rw [hb.tsOf hm'] at hmlt
  obtain ⟨k, hsame, hklt, hkpoints, hfirm⟩ := hfreed hmlt hapart
  obtain ⟨kts, hk⟩ := hsame.exists_label (hb.label hm')
  have ht' : t' ≠ tid :=
    hg.timeOrdered.ne_of_cleanThread hg.owned h hm' (by rwa [← tsOf_of_label (hb.label hm')])
  have hk' := hg.owned.label_cleanThread_of_ne hk ht' h
  have hkpoints' := hg.pointsTo_cleanThread (hleft hk') (hleft hn') hkpoints hfirm h
  exact ⟨k, (hb.sameThread hk' hm').mpr hsame, by rwa [hb.tsOf hk'], hkpoints',
    hfirm.of_below hb hkpoints'⟩

theorem Cleanable.cleanThread (hg : g.Cleanable cutoff)
    (h : CriticalGraph.cleanThread cutoff g tid = .ok g') : g'.Cleanable cutoff where
  owned := hg.owned.cleanThread h
  sound := hg.sound.cleanThread hg.owned h
  timeOrdered := hg.timeOrdered.of_below (below_cleanThread hg.owned h) (hg.owned.cleanThread h)
  sweepable := hg.sweepable_cleanThread h

/-- A cleanup meets no missing edge and no freed node. -/
theorem Cleanable.cleanup_total (hg : g.Cleanable cutoff) (order : List ℕ) :
    ∃ g', g.cleanup cutoff order = .ok g' ∧ g'.Cleanable cutoff := by
  refine run_total (P := fun g : CriticalGraph => g.Cleanable cutoff) ?_ hg
  rintro tid - mid hmid
  obtain ⟨mid', h⟩ := hmid.sound.cleanThread_total hmid.owned fun n hn p m hpoints =>
    (hmid.sweepable n p m hpoints (hmid.timeOrdered.mem_staleNodes.mp hn).2).1
  exact ⟨mid', h, hmid.cleanThread h⟩

theorem Cleanable.cleanup (hg : g.Cleanable cutoff) {order : List ℕ}
    (h : g.cleanup cutoff order = .ok g') : g'.Cleanable cutoff :=
  run_invariant (P := fun g : CriticalGraph => g.Cleanable cutoff)
    (fun _ _ _ _ hmid hstep => hmid.cleanThread hstep) hg h

/-- The sweep comes to all threads, and leaves none of their older nodes. -/
theorem Cleanable.le_of_label (hg : g.Cleanable cutoff) {order : List ℕ}
    (horder : order.Perm g.tids) (h : g.cleanup cutoff order = .ok g') {label : ℕ × ℕ}
    (hn : g'.label n = some label) : cutoff ≤ label.1 := by
  by_contra hlt
  have hold := (below_cleanup hg.owned h).label hn
  have hmem : label.2 ∈ order :=
    horder.mem_iff.mpr (hg.owned.keys (hg.owned.mem_nodesOf.mpr ⟨label.1, hold⟩))
  obtain ⟨pre, post, rfl⟩ := List.append_of_mem hmem
  obtain ⟨mid, hpre, hrest⟩ := run_append_eq_ok.mp h
  obtain ⟨mid', hstep, hpost⟩ := run_cons_eq_ok.mp hrest
  have hmid : mid.Cleanable cutoff := hg.cleanup hpre
  have hmid' := hmid.cleanThread hstep
  have hlast : mid'.cleanup cutoff post = .ok g' := hpost
  have hn' := (below_cleanup hmid'.owned hlast).label hn
  exact hmid.timeOrdered.ne_of_cleanThread hmid.owned hstep hn' (not_le.mp hlt) rfl

end sweeps

/-- The node is not older than the cutoff. -/
def Stays (g : CriticalGraph) (cutoff n : ℕ) : Prop :=
  ∃ label ∈ g.label n, cutoff ≤ label.1

instance (g : CriticalGraph) (cutoff n : ℕ) : Decidable (g.Stays cutoff n) :=
  inferInstanceAs (Decidable (∃ label ∈ g.label n, cutoff ≤ label.1))

/-- What a cleanup leaves of a graph: the nodes that are not older than the cutoff, and what a
firm slot holds, when both ends are left. -/
structure Spares (g : CriticalGraph) (cutoff : ℕ) (g' : CriticalGraph) : Prop where
  below : Below g' g
  owned : g'.Owned
  sound : SlotsSound noStale g'
  label : ∀ {n label}, g.label n = some label → cutoff ≤ label.1 → g'.label n = some label
  gone : ∀ {n label}, g'.label n = some label → cutoff ≤ label.1
  kept : ∀ {n p far}, g.PointsTo n p far → g.Firm cutoff n p → g.Stays cutoff n →
    g.Stays cutoff far → g'.PointsTo n p far
  cleared : ∀ {n p far}, g.PointsTo n p far → g.Firm cutoff n p → ¬ g.Stays cutoff n →
    g.Stays cutoff far → g'.slot far p.opposite = none

section spares

variable {g g' : CriticalGraph} {cutoff tid n far : ℕ} {p : CriticalEdgePosition}
  {order : List ℕ}

theorem Stays.not_mem_staleNodes (h : g.Stays cutoff n) (tid : ℕ) :
    n ∉ g.staleNodes cutoff tid := by
  obtain ⟨⟨ts, t⟩, hlabel, hle⟩ := h
  refine CriticalGraph.not_mem_staleNodes ?_ tid
  rwa [tsOf_of_label hlabel]

theorem Stays.cleanThread (h : g.Stays cutoff n) (ho : g.Owned)
    (hclean : CriticalGraph.cleanThread cutoff g tid = .ok g') : g'.Stays cutoff n := by
  have hmem := h.not_mem_staleNodes tid
  obtain ⟨label, hlabel, hle⟩ := h
  exact ⟨label, by rw [ho.label_cleanThread hclean, if_neg hmem]; exact hlabel, hle⟩

theorem Cleanable.cleanup_kept (hg : g.Cleanable cutoff) (h : g.cleanup cutoff order = .ok g')
    (hpoints : g.PointsTo n p far) (hfirm : g.Firm cutoff n p) (hn : g.Stays cutoff n)
    (hfar : g.Stays cutoff far) : g'.PointsTo n p far := by
  have hrun := run_invariant (P := fun mid : CriticalGraph => mid.Cleanable cutoff ∧
    mid.Stays cutoff n ∧ mid.Stays cutoff far ∧ mid.PointsTo n p far ∧ mid.Firm cutoff n p)
    ?_ ⟨hg, hn, hfar, hpoints, hfirm⟩ h
  · exact hrun.2.2.2.1
  · rintro tid - mid mid' ⟨hmid, hn, hfar, hpoints, hfirm⟩ hstep
    have hpoints' := hmid.pointsTo_cleanThread (hn.not_mem_staleNodes tid)
      (hfar.not_mem_staleNodes tid) hpoints hfirm hstep
    exact ⟨hmid.cleanThread hstep, hn.cleanThread hmid.owned hstep,
      hfar.cleanThread hmid.owned hstep, hpoints',
      hfirm.of_below (below_cleanThread hmid.owned hstep) hpoints'⟩

/-- Up to the sweep of its thread an older node has its firm slots. -/
theorem Cleanable.cleanup_cleared (hg : g.Cleanable cutoff) (horder : order.Perm g.tids)
    (h : g.cleanup cutoff order = .ok g') (hpoints : g.PointsTo n p far)
    (hfirm : g.Firm cutoff n p) (hn : ¬ g.Stays cutoff n) (hfar : g.Stays cutoff far) :
    g'.slot far p.opposite = none := by
  have hrun := run_invariant (P := fun mid : CriticalGraph => mid.Cleanable cutoff ∧
    mid.Stays cutoff far ∧
      (mid.slot far p.opposite = none ∨ mid.PointsTo n p far ∧ mid.Firm cutoff n p))
    ?_ ⟨hg, hfar, .inr ⟨hpoints, hfirm⟩⟩ h
  · rcases hrun.2.2 with hnone | ⟨hpoints', -⟩
    · exact hnone
    · obtain ⟨label, hlabel⟩ := hpoints'.exists_label
      exact absurd ⟨label, (below_cleanup hg.owned h).label hlabel,
        hg.le_of_label horder h hlabel⟩ hn
  · rintro tid - mid mid' ⟨hmid, hfar, hslot⟩ hstep
    have hb := below_cleanThread hmid.owned hstep
    refine ⟨hmid.cleanThread hstep, hfar.cleanThread hmid.owned hstep, ?_⟩
    have hfarStale := hfar.not_mem_staleNodes tid
    rcases hslot with hnone | ⟨hpoints, hfirm⟩
    · exact .inl (hb.slot_none hnone)
    · by_cases hstale : n ∈ mid.staleNodes cutoff tid
      · exact .inl (hmid.slot_cleanThread hstale hfarStale hpoints hfirm hstep)
      · have hpoints' := hmid.pointsTo_cleanThread hstale hfarStale hpoints hfirm hstep
        exact .inr ⟨hpoints', hfirm.of_below hb hpoints'⟩

theorem Cleanable.cleanup_spares (hg : g.Cleanable cutoff) (horder : order.Perm g.tids) :
    ∃ g', g.cleanup cutoff order = .ok g' ∧ g.Spares cutoff g' := by
  obtain ⟨g', h, hg'⟩ := hg.cleanup_total order
  exact ⟨g', h, {
    below := below_cleanup hg.owned h
    owned := hg'.owned
    sound := hg'.sound
    label := fun hlabel hle => label_cleanup_of_le hg.owned hlabel hle h
    gone := fun hlabel => hg.le_of_label horder h hlabel
    kept := fun hpoints hfirm hn hfar => hg.cleanup_kept h hpoints hfirm hn hfar
    cleared := fun hpoints hfirm hn hfar =>
      hg.cleanup_cleared horder h hpoints hfirm hn hfar }⟩

theorem Stays.le_tsOf (h : g.Stays cutoff n) : cutoff ≤ g.tsOf n := by
  obtain ⟨⟨ts, t⟩, hlabel, hle⟩ := h
  rwa [tsOf_of_label hlabel]

theorem stays_of_label {label : ℕ × ℕ} (hlabel : g.label n = some label)
    (hle : cutoff ≤ g.tsOf n) : g.Stays cutoff n := by
  rw [tsOf_of_label hlabel] at hle
  exact ⟨label, hlabel, hle⟩

theorem stays_of_slot {e : ℕ} (hslot : g.slot n p = some e) (hle : cutoff ≤ g.tsOf n) :
    g.Stays cutoff n :=
  stays_of_label (label_of_slot hslot).choose_spec hle

theorem Spares.stays (hs : g.Spares cutoff g') {label : ℕ × ℕ} (hn : g'.label n = some label) :
    g.Stays cutoff n :=
  ⟨label, hs.below.label hn, hs.gone hn⟩

theorem Spares.slot (hs : g.Spares cutoff g') {e : ℕ} {edge : CriticalEdge}
    (hslot : g.slot n p = some e) (hedge : g.edges e = some edge) (hfirm : g.Firm cutoff n p)
    (hn : g.Stays cutoff n) (hfar : g.Stays cutoff (edge.endpoint p.opposite)) :
    g'.slot n p = some e ∧ g'.edges e = some edge := by
  have hpoints := hs.kept ⟨e, edge, hslot, hedge, rfl⟩ hfirm hn hfar
  have hslot' : g'.slot n p = some e := by rw [hs.below.slot_eq hpoints, hslot]
  obtain ⟨edge', hedge', -⟩ := hs.sound.stored not_false hslot'
  have hold := hs.below.edges hedge'
  rw [hedge] at hold
  obtain rfl := Option.some.inj hold
  exact ⟨hslot', hedge'⟩

theorem Spares.mem_nodesOf (hs : g.Spares cutoff g') (ho : g.Owned) (hn : n ∈ g.nodesOf tid)
    (hle : cutoff ≤ g.tsOf n) : n ∈ g'.nodesOf tid :=
  hs.owned.mem_nodesOf.mpr ⟨_, hs.label (ho.label_of_mem hn) hle⟩

end spares

/-! ### Graphs without overwritten slots -/

section exact

variable {g : CriticalGraph} {n m : ℕ} {p : CriticalEdgePosition}

theorem SlotsExact.pointsTo (hg : SlotsExact noStale g) (h : g.PointsTo n p m) :
    g.PointsTo m p.opposite n ∧ g.slot m p.opposite = g.slot n p := by
  obtain ⟨e, edge, hslot, hedge, rfl⟩ := h
  have hfar := hg.far not_false hslot hedge
  refine ⟨⟨e, edge, hfar, hedge, ?_⟩, by rw [hfar, hslot]⟩
  rw [CriticalEdgePosition.opposite_opposite]
  exact hg.endpoint_eq not_false hslot hedge

theorem SlotsExact.firm (hg : SlotsExact noStale g) (cutoff n : ℕ) (p : CriticalEdgePosition) :
    g.Firm cutoff n p := by
  intro m hpoints _
  have hback := (hg.pointsTo hpoints).2
  rw [CriticalEdgePosition.opposite_opposite] at hback
  exact .inl hback.symm

theorem SlotsExact.sweepable (hg : SlotsExact noStale g) (cutoff : ℕ) : g.Sweepable cutoff := by
  intro n p m hpoints hlt
  have hback := (hg.pointsTo hpoints).1
  exact ⟨hback.exists_label, fun hmlt _ => ⟨m, rfl, hmlt, hback, hg.firm cutoff m p.opposite⟩⟩

end exact

end CriticalGraph

end TibeeCompare.Critical
