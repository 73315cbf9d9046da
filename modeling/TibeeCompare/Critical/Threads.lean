import TibeeCompare.Critical.Built
import TibeeCompare.Critical.Calls
import Mathlib.Data.List.Perm.Subperm

/-!
Graphs in which the nodes of every thread form a chain.

On such a graph the lookups of the path search have a simple meaning:
`GetNodeIntersecting` cuts the chain of a thread at the start of the window, and
the two loops go along it, so they end within `CriticalGraph.rounds`.
-/

namespace TibeeCompare.Critical

namespace CriticalGraph

/-- The outgoing horizontal edge of every node leads to the next one, and the
last node has none. -/
def LinkedFrom (g : CriticalGraph) : List ℕ → Prop
  | [] => True
  | [n] => g.slot n .outHorizontal = none
  | n :: m :: nodes =>
      ((g.slot n .outHorizontal).bind g.edges).map (·.toNode) = some m ∧
        g.LinkedFrom (m :: nodes)

instance (g : CriticalGraph) : ∀ nodes, Decidable (g.LinkedFrom nodes)
  | [] => isTrue trivial
  | [n] => inferInstanceAs (Decidable (g.slot n .outHorizontal = none))
  | n :: m :: nodes =>
      have : Decidable (g.LinkedFrom (m :: nodes)) := instDecidableLinkedFrom g (m :: nodes)
      inferInstanceAs (Decidable (((g.slot n .outHorizontal).bind g.edges).map (·.toNode) = some m ∧
        g.LinkedFrom (m :: nodes)))

theorem LinkedFrom.next {g : CriticalGraph} {n m : ℕ} {nodes : List ℕ}
    (h : g.LinkedFrom (n :: m :: nodes)) :
    ∃ e edge, g.slot n .outHorizontal = some e ∧ g.edges e = some edge ∧ edge.toNode = m := by
  obtain ⟨edge, hedge, hto⟩ := Option.map_eq_some_iff.mp h.1
  obtain ⟨e, hslot, hedge⟩ := Option.bind_eq_some_iff.mp hedge
  exact ⟨e, edge, hslot, hedge, hto⟩

/-- The nodes of every thread are in the order of time, and linked. -/
structure Threaded (g : CriticalGraph) : Prop where
  timeOrdered : ∀ t, (g.nodesOf t).Pairwise fun n m => g.tsOf n ≤ g.tsOf m
  linked : ∀ t, g.LinkedFrom (g.nodesOf t)

theorem LinkedFrom.suffix {g : CriticalGraph} {pre nodes : List ℕ}
    (h : g.LinkedFrom (pre ++ nodes)) : g.LinkedFrom nodes := by
  induction pre with
  | nil => exact h
  | cons n pre ih =>
      apply ih
      cases hrest : pre ++ nodes with
      | nil => trivial
      | cons m rest =>
          rw [List.cons_append, hrest] at h
          exact h.2

/-- The outgoing horizontal edge of every node but the last leads to the next one. -/
def ChainedFrom (g : CriticalGraph) : List ℕ → Prop
  | n :: m :: nodes =>
      ((g.slot n .outHorizontal).bind g.edges).map (·.toNode) = some m ∧
        g.ChainedFrom (m :: nodes)
  | _ => True

instance (g : CriticalGraph) : ∀ nodes, Decidable (g.ChainedFrom nodes)
  | [] => isTrue trivial
  | [_] => isTrue trivial
  | n :: m :: nodes =>
      have : Decidable (g.ChainedFrom (m :: nodes)) := instDecidableChainedFrom g (m :: nodes)
      inferInstanceAs (Decidable (((g.slot n .outHorizontal).bind g.edges).map (·.toNode) = some m ∧
        g.ChainedFrom (m :: nodes)))

/-- A chain is linked if its last node has no outgoing horizontal edge. -/
theorem linkedFrom_iff {g : CriticalGraph} {nodes : List ℕ} :
    g.LinkedFrom nodes ↔
      g.ChainedFrom nodes ∧ ∀ n ∈ nodes.getLast?, g.slot n .outHorizontal = none := by
  induction nodes with
  | nil => simp [LinkedFrom, ChainedFrom]
  | cons n nodes ih =>
      cases nodes with
      | nil => simp [LinkedFrom, ChainedFrom]
      | cons m nodes =>
          rw [LinkedFrom, ChainedFrom, ih, List.getLast?_cons_cons, and_assoc]

/-- The nodes of every thread are in the order of time. -/
def TimeOrdered (g : CriticalGraph) : Prop :=
  ∀ t, (g.nodesOf t).Pairwise fun n m => g.tsOf n ≤ g.tsOf m

/-- Only the threads that have a vector need to be looked at. -/
theorem Owned.forall_nodesOf {g : CriticalGraph} (ho : g.Owned) {P : List ℕ → Prop} (hnil : P [])
    (h : ∀ t ∈ g.tids, P (g.nodesOf t)) (t : ℕ) : P (g.nodesOf t) := by
  cases hnodes : g.nodesOf t with
  | nil => exact hnil
  | cons n nodes =>
      rw [← hnodes]
      exact h t (ho.keys (hnodes ▸ List.mem_cons_self))

theorem timeOrdered_of_keys {g : CriticalGraph} (ho : g.Owned)
    (h : ∀ t ∈ g.tids, (g.nodesOf t).Pairwise fun n m => g.tsOf n ≤ g.tsOf m) : g.TimeOrdered :=
  ho.forall_nodesOf List.Pairwise.nil h

theorem Threaded.of_keys {g : CriticalGraph} (ho : g.Owned)
    (h : ∀ t ∈ g.tids, ((g.nodesOf t).Pairwise fun n m => g.tsOf n ≤ g.tsOf m) ∧
      g.LinkedFrom (g.nodesOf t)) : g.Threaded where
  timeOrdered := timeOrdered_of_keys ho fun t ht => (h t ht).1
  linked := ho.forall_nodesOf (P := g.LinkedFrom) trivial fun t ht => (h t ht).2

/-- The nodes are allocated and belong to the thread. -/
def LiveOn (g : CriticalGraph) (tid : ℕ) (nodes : List ℕ) : Prop :=
  ∀ n ∈ nodes, g.label n = some (g.tsOf n, tid)

theorem Owned.liveOn {g : CriticalGraph} (h : g.Owned) (tid : ℕ) :
    g.LiveOn tid (g.nodesOf tid) :=
  fun _ hn => h.label_of_mem hn

theorem LiveOn.heap {g : CriticalGraph} {tid : ℕ} {nodes : List ℕ} (h : g.LiveOn tid nodes)
    {n : ℕ} (hn : n ∈ nodes) :
    ∃ node, g.heap n = some node ∧ node.ts = g.tsOf n ∧ node.tid = tid :=
  heap_of_label (h n hn)

theorem LiveOn.suffix {g : CriticalGraph} {tid : ℕ} {pre nodes : List ℕ}
    (h : g.LiveOn tid (pre ++ nodes)) : g.LiveOn tid nodes :=
  fun n hn => h n (List.mem_append_right _ hn)

theorem Owned.length_nodesOf {g : CriticalGraph} (h : g.Owned) (tid : ℕ) :
    (g.nodesOf tid).length ≤ g.nextNode := by
  have hsubset : g.nodesOf tid ⊆ List.range g.nextNode := by
    intro n hn
    exact List.mem_range.mpr (h.lt_next (h.label_of_mem hn))
  have hlength := (List.subperm_of_subset (h.nodup tid) hsubset).length_le
  rwa [List.length_range] at hlength

/-- A loop along the rest of the nodes of a thread has rounds enough. -/
theorem Owned.length_lt_rounds {g : CriticalGraph} (h : g.Owned) {tid : ℕ} {pre nodes : List ℕ}
    (hsplit : g.nodesOf tid = pre ++ nodes) : nodes.length < g.rounds := by
  have hlength := h.length_nodesOf tid
  rw [hsplit, List.length_append] at hlength
  exact Nat.lt_succ_of_le ((Nat.le_add_left _ _).trans hlength)

/-- A list in the order of time, cut between the nodes up to `ts` and the rest. -/
theorem exists_cut {g : CriticalGraph} {ts : ℕ} {nodes : List ℕ}
    (hordered : nodes.Pairwise fun n m => g.tsOf n ≤ g.tsOf m)
    (hbefore : ∃ n ∈ nodes, g.tsOf n ≤ ts) (hafter : ∃ n ∈ nodes, ts < g.tsOf n) :
    ∃ pre n m rest, nodes = pre ++ n :: m :: rest ∧ (∀ k ∈ pre, g.tsOf k ≤ ts) ∧
      g.tsOf n ≤ ts ∧ ∀ k ∈ m :: rest, ts < g.tsOf k := by
  induction nodes with
  | nil => simp at hbefore
  | cons a nodes ih =>
      obtain ⟨ha, hordered⟩ := List.pairwise_cons.mp hordered
      have hale : g.tsOf a ≤ ts := by
        obtain ⟨n, hn, hle⟩ := hbefore
        rcases List.mem_cons.mp hn with rfl | hn
        · exact hle
        · exact (ha n hn).trans hle
      have hafter : ∃ n ∈ nodes, ts < g.tsOf n := by
        obtain ⟨n, hn, hlt⟩ := hafter
        rcases List.mem_cons.mp hn with rfl | hn
        · omega
        · exact ⟨n, hn, hlt⟩
      cases nodes with
      | nil => simp at hafter
      | cons b nodes =>
          by_cases hb : g.tsOf b ≤ ts
          · obtain ⟨pre, n, m, rest, hsplit, hpre, hrest⟩ :=
              ih hordered ⟨b, List.mem_cons_self, hb⟩ hafter
            refine ⟨a :: pre, n, m, rest, by rw [hsplit]; rfl, ?_, hrest⟩
            intro k hk
            rcases List.mem_cons.mp hk with rfl | hk
            · exact hale
            · exact hpre k hk
          · refine ⟨[], a, b, nodes, rfl, by simp, hale, ?_⟩
            intro k hk
            rcases List.mem_cons.mp hk with rfl | hk
            · omega
            · have := (List.pairwise_cons.mp hordered).1 k hk
              omega

theorem getNodeIntersecting_none {g : CriticalGraph} {ts tid : ℕ}
    (h : ∀ n ∈ g.nodesOf tid, ts < g.tsOf n) : g.getNodeIntersecting ts tid = .ok none := by
  have hnil : ((g.nodesOf tid).takeWhile fun n => g.tsOf n ≤ ts) = [] := by
    cases hnodes : g.nodesOf tid with
    | nil => rfl
    | cons n nodes =>
        have hn := h n (by simp [hnodes])
        rw [List.takeWhile_cons_of_neg (by simpa using hn)]
  unfold getNodeIntersecting
  rw [hnil]
  rfl

/-- A node at or before `ts` whose successor lies after `ts`. -/
theorem getNodeIntersecting_some {g : CriticalGraph} {ts tid n m : ℕ} {pre rest : List ℕ}
    (hnodes : g.nodesOf tid = pre ++ n :: m :: rest) (howned : g.Owned)
    (hlinked : g.LinkedFrom (g.nodesOf tid)) (hpre : ∀ k ∈ pre, g.tsOf k ≤ ts)
    (hn : g.tsOf n ≤ ts) (hm : ts < g.tsOf m) :
    g.getNodeIntersecting ts tid = .ok (some n) := by
  have hlive := howned.liveOn tid
  rw [hnodes] at hlive hlinked
  have htake : ((g.nodesOf tid).takeWhile fun n => g.tsOf n ≤ ts) = pre ++ [n] := by
    rw [hnodes, List.takeWhile_append_of_pos (by simpa using hpre), List.takeWhile_cons_of_pos
      (by simpa using hn), List.takeWhile_cons_of_neg (by simpa using hm)]
  obtain ⟨e, edge, hslot, hedge, rfl⟩ := hlinked.suffix.next
  obtain ⟨node, hnode, -, -⟩ := hlive.suffix.heap (List.mem_cons_self (a := n))
  obtain ⟨next, hnext, hts, -⟩ := hlive.suffix.heap
    (List.mem_cons_of_mem n (List.mem_cons_self (a := edge.toNode)))
  rw [slot_of_heap hnode] at hslot
  unfold getNodeIntersecting
  rw [htake, List.getLast?_concat]
  simp only [deref_of_heap hnode, hslot, getEdge, hedge, deref_of_heap hnext, bind, Except.bind]
  rw [if_neg (by omega)]
  rfl

theorem getNodeStartingAfter_eq {g : CriticalGraph} {ts tid : ℕ}
    (h : ∀ n ∈ g.nodesOf tid, ts < g.tsOf n) :
    g.getNodeStartingAfter ts tid = (g.nodesOf tid).head? := by
  unfold getNodeStartingAfter
  cases hnodes : g.nodesOf tid with
  | nil => rfl
  | cons n nodes =>
      have hn := h n (by simp [hnodes])
      rw [List.dropWhile_cons_of_neg (by simpa using hn)]

/-- The first loop goes along the chain and stops at a woken node, or at none. -/
theorem findWakeUp_linked {g : CriticalGraph} (endTs : ℕ) {tid : ℕ} {nodes : List ℕ}
    (hlive : g.LiveOn tid nodes) (hlinked : g.LinkedFrom nodes) {rounds : ℕ}
    (hrounds : nodes.length < rounds) :
    ∃ hit, findWakeUp g endTs rounds nodes.head? = .ok hit ∧
      ∀ n id, hit = some (n, id) → ∃ pre post, nodes = pre ++ n :: post ∧ g.tsOf n ≤ endTs ∧
        g.slot n .inVertical = some id := by
  induction nodes generalizing rounds with
  | nil =>
      refine ⟨none, ?_, by simp⟩
      cases rounds <;> rfl
  | cons n nodes ih =>
      cases rounds with
      | zero => simp at hrounds
      | succ rounds =>
          obtain ⟨node, hnode, hts, -⟩ := hlive.heap (List.mem_cons_self (a := n))
          have hrounds' : nodes.length < rounds := by simpa using hrounds
          simp only [List.head?_cons, findWakeUp, deref_of_heap hnode, bind, Except.bind]
          split
          · next hle =>
              -- the loop ends at the first node that was woken
              cases hin : node.edge .inVertical with
              | some id =>
                  refine ⟨some (n, id), rfl, ?_⟩
                  rintro n' id' ⟨⟩
                  refine ⟨[], nodes, rfl, by omega, ?_⟩
                  rw [slot_of_heap hnode, hin]
              | none =>
                  cases nodes with
                  | nil =>
                      have hlast : g.slot n .outHorizontal = none := hlinked
                      rw [slot_of_heap hnode] at hlast
                      exact ⟨none, by simp only [hlast]; rfl, by simp⟩
                  | cons m nodes =>
                      obtain ⟨e, edge, hslot, hedge, rfl⟩ := hlinked.next
                      rw [slot_of_heap hnode] at hslot
                      have hlive' : g.LiveOn tid (edge.toNode :: nodes) :=
                        LiveOn.suffix (show g.LiveOn tid ([n] ++ edge.toNode :: nodes) from hlive)
                      obtain ⟨hit, hfind, hhit⟩ := ih hlive' hlinked.2 hrounds'
                      refine ⟨hit,
                        by simpa only [hslot, getEdge, hedge, List.head?_cons] using hfind, ?_⟩
                      intro n' id' heq
                      obtain ⟨pre, post, hsplit, hrest⟩ := hhit n' id' heq
                      exact ⟨n :: pre, post, by rw [hsplit]; rfl, hrest⟩
          · exact ⟨none, rfl, by simp⟩

end CriticalGraph

end TibeeCompare.Critical
