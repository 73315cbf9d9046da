import TibeeCompare.CriticalBlocks.Traces
import TibeeCompare.Critical.Recursion
import TibeeCompare.Lib.Cycles

/-!
When a search of the graph of a trace ends.

A call that does not move the start of its window goes on at its `front`: the node
that ends the wait at the start, or the first wake-up of a thread that starts
late. The fronts of the calls it leads to were created earlier, with one exception:
a thread that starts late is searched up to its first wake-up, and the waker over
the same window once more. A search therefore fails to end only when threads wait
for each other over one and the same window, through wake-ups that all take place
at its end.
-/

namespace TibeeCompare.Critical

open Relation CriticalGraph

namespace CriticalGraph

variable {g : CriticalGraph}

/-- The nodes of the thread after the one that is found lie after the timestamp. -/
theorem Clocked.lt_tsOf (h : g.Clocked) (ho : g.Owned) {ts tid n k : ℕ}
    (hn : g.getNodeIntersecting ts tid = .ok (some n)) (hk : k ∈ g.nodesOf tid) (hlt : n < k) :
    ts < g.tsOf k := by
  by_contra hle
  have htake := SortedLists.mem_takeWhile_of_le (h.timeOrdered ho tid) hk (not_lt.mp hle)
  have hlast := SortedLists.le_getLast? ((ho.sorted tid).sublist (List.takeWhile_sublist _))
    (getLast?_of_getNodeIntersecting hn) htake
  omega

theorem Clocked.tsOf_le (h : g.Clocked) {n m : ℕ} (hle : n ≤ m) {label label' : ℕ × ℕ}
    (hn : g.label n = some label) (hm : g.label m = some label') : g.tsOf n ≤ g.tsOf m := by
  rcases Nat.eq_or_lt_of_le hle with rfl | hlt
  · exact le_rfl
  · rw [tsOf_of_label hn, tsOf_of_label hm]
    exact h.ordered hlt hn hm

end CriticalGraph

/-! ### Threads that wait for each other -/

/-- Over one window, the thread waits for the thread `source` until the end. -/
inductive WaitsFor (g : CriticalGraph) (startTs endTs tid source : ℕ) : Prop
  /-- The thread starts late and is first woken up when the window ends. -/
  | late {h w : ℕ} : LateHit g ⟨startTs, endTs, tid⟩ h → g.tsOf h = endTs → g.Wakes w h →
      g.label w = some (endTs, source) → WaitsFor g startTs endTs tid source
  /-- The thread is blocked when the window starts, and until it ends. -/
  | blocked {n id w : ℕ} {edge : CriticalEdge} : startTs < endTs →
      g.getNodeIntersecting startTs tid = .ok (some n) → g.slot n .outHorizontal = some id →
      g.edges id = some edge → edge.type.isBlocked → g.tsOf edge.toNode = endTs →
      .ok (.recurse w startTs endTs source) ∈ blockedScript g edge startTs endTs →
      WaitsFor g startTs endTs tid source

variable {g : CriticalGraph}

theorem LateHit.woken (hg : g.Navigable) {call : Call} {h : ℕ} (hlate : LateHit g call h) :
    ∃ id, findWakeUp g call.endTs g.rounds (g.getNodeStartingAfter call.startTs call.tid) =
      .ok (some (h, id)) ∧ g.slot h .inVertical = some id ∧ g.tsOf h ≤ call.endTs := by
  obtain ⟨-, hnone, id, hfind⟩ := hlate
  refine ⟨id, hfind, ?_⟩
  cases callBegins hg call.startTs call.endTs call.tid with
  | node hsome =>
      rw [hnone] at hsome
      cases hsome
  | nothing _ hfirst =>
      rw [hfirst, findWakeUp_none] at hfind
      cases hfind
  | missed _ hfirst _ _ _ hmissed =>
      rw [hfirst, hmissed] at hfind
      cases hfind
  | woken _ hfirst _ _ hfound _ _ hle hslot =>
      rw [hfirst, hfound] at hfind
      obtain ⟨rfl, rfl⟩ := Prod.mk.inj (Option.some.inj (Except.ok.inj hfind))
      exact ⟨hslot, hle⟩

/-- The window is searched on the thread that is waited for. -/
theorem WaitsFor.leads (hg : g.Navigable) {startTs endTs tid source : ℕ}
    (h : WaitsFor g startTs endTs tid source) :
    Leads g ⟨startTs, endTs, tid⟩ ⟨startTs, endTs, source⟩ := by
  cases h with
  | @late h w hlate hts hw hsource =>
      obtain ⟨id, hfind, hfound, -⟩ := hlate.woken hg
      obtain ⟨hlt, hnone, -⟩ := hlate
      obtain ⟨id', edge, hslot, hedge, rfl⟩ := hw
      rw [hslot] at hfound
      obtain rfl := Option.some.inj hfound
      obtain ⟨hit, hhit, -⟩ := Option.bind_eq_some_iff.mp hslot
      obtain ⟨waker, hwaker, hwakerLabel⟩ := heap_of_label hsource
      refine ⟨edge.fromNode, ?_⟩
      rw [tsOf_of_heap hhit] at hts
      rw [Call.script, callScript_of_woken hlt hnone rfl hfind (deref_of_heap hhit) hedge
        (deref_of_heap hwaker), hts, hwakerLabel.2]
      exact List.mem_cons_self
  | @blocked n id w edge hlt hsome hslot hedge hblocked hts hmem =>
      obtain ⟨node, hnode, hout⟩ := Option.bind_eq_some_iff.mp hslot
      obtain ⟨edge', toNode, hedge', hto⟩ := hg.heap_to hslot
      rw [hedge] at hedge'
      obtain rfl := Option.some.inj hedge'
      have hle := (mem_of_getNodeIntersecting hg hsome).2
      rw [tsOf_of_heap hnode] at hle
      rw [tsOf_of_heap hto] at hts
      refine ⟨w, ?_⟩
      rw [Call.script, callScript_of_node hlt hsome, CriticalGraph.rounds,
        traverseScript_step (deref_of_heap hnode) (hle.trans hlt.le) hout hedge (deref_of_heap hto),
        edgeScript, if_pos hblocked, max_eq_left hle, hts, min_self]
      exact List.mem_append_left _ hmem

/-! ### Fronts -/

/-- The node at which a call goes on that does not move the start of its window. -/
def front (g : CriticalGraph) (call : Call) : Option ℕ :=
  match g.getNodeIntersecting call.startTs call.tid with
  | .ok (some n) =>
      (g.slot n .outHorizontal).bind fun id =>
        (g.edges id).bind fun edge => if edge.type.isBlocked then some edge.toNode else none
  | .ok none =>
      match findWakeUp g call.endTs g.rounds (g.getNodeStartingAfter call.startTs call.tid) with
      | .ok (some (h, _)) => some h
      | _ => none
  | .error _ => none

/-- A call that leads to another one with the same start: its front `m` is woken up
from `w`, or by a packet that was sent at `w`. -/
structure FrontStep (g : CriticalGraph) (call next : Call) (m w : ℕ) : Prop where
  nonempty : call.startTs < call.endTs
  front : front g call = some m
  lt : w < m
  tsOf_le : g.tsOf w ≤ g.tsOf m
  label : g.label w = some (g.tsOf w, next.tid)
  endTs_le : next.endTs ≤ g.tsOf w
  le_endTs : min call.endTs (g.tsOf w) ≤ next.endTs
  waitsFor : call.endTs = g.tsOf m → next.endTs = g.tsOf m →
    WaitsFor g call.startTs call.endTs call.tid next.tid

theorem CriticalGraph.Traced.le_tsOf_of_walk (hg : g.Traced) {n k : ℕ} (h : g.Walk n k) :
    g.tsOf n ≤ g.tsOf k := by
  refine h.induction (P := fun k => g.tsOf n ≤ g.tsOf k) ?_ le_rfl
  intro n m hn hm
  obtain ⟨t, -, -, -, hle⟩ := hg.follow hm
  exact hn.trans hle

theorem Leads.nonempty {call next : Call} (h : Leads g call next) :
    call.startTs < call.endTs := by
  obtain ⟨source, hmem⟩ := h
  by_contra hle
  simp only [Call.script, callScript, if_pos (not_lt.mp hle)] at hmem
  cases hmem

/-- Only the first wait of the last loop starts with the window. -/
theorem traverse_front (hg : g.Traced) {call next : Call} {n source : ℕ}
    (hnonempty : call.startTs < call.endTs)
    (hsome : g.getNodeIntersecting call.startTs call.tid = .ok (some n))
    (hn : n ∈ g.nodesOf call.tid)
    (hstep : TraverseStep g call.startTs call.endTs n
      (.ok (.recurse source next.startTs next.endTs next.tid)))
    (hstart : call.startTs = next.startTs) : ∃ m w, FrontStep g call next m w := by
  cases hstep with
  | @wait k id edge toNode _ hwalk hslot hedge hblocked _ hto hmem =>
      obtain ⟨hmax, hlabel, hend⟩ := blockedScript_recurse hg.navigable hto hmem
      have hk : g.tsOf k ≤ call.startTs := by omega
      -- any later node is behind the start of the window, where no wait starts with it
      have hkn : n = k := by
        cases hwalk with
        | refl => rfl
        | @head _ m _ hfollow hrest =>
            obtain ⟨t, hnt, hmt, hlt, -⟩ := hg.follow hfollow
            rw [hg.owned.label_of_mem hn] at hnt
            obtain ⟨-, rfl⟩ := Prod.mk.inj (Option.some.inj hnt)
            have hafter := hg.clocked.lt_tsOf hg.owned hsome
              (hg.owned.mem_nodesOf.mpr ⟨_, hmt⟩) hlt
            have hle := hg.le_tsOf_of_walk hrest
            omega
      subst hkn
      have hwait : call.endTs = g.tsOf edge.toNode → next.endTs = g.tsOf edge.toNode →
          WaitsFor g call.startTs call.endTs call.tid next.tid := by
        intro hcall hnext
        rw [max_eq_left hk, ← hcall, min_self, ← hstart, hnext, ← hcall] at hmem
        exact .blocked hnonempty hsome hslot hedge hblocked hcall.symm hmem
      have hfront : front g call = some edge.toNode := by
        simp only [front, hsome, hslot, Option.bind_some, hedge, if_pos hblocked]
      rcases hend with ⟨hw, hmin⟩ | ⟨w, p, sent, hw, hp, hq, hsent, hsentTs⟩
      · obtain ⟨hlt, hts⟩ := hg.wakes hw
        exact ⟨edge.toNode, source, hnonempty, hfront, hlt, hts.le, hlabel, by omega, by omega,
          hwait⟩
      · obtain ⟨hwlt, hwts⟩ := hg.wakes hw
        obtain ⟨hplt, hpts⟩ := hg.precedes hp
        obtain ⟨hqlt, hqts⟩ := hg.wakes hq
        rw [← tsOf_of_heap hsent] at hsentTs
        exact ⟨edge.toNode, source, hnonempty, hfront, by omega, by omega, hlabel, by omega,
          by omega, hwait⟩

theorem LateHit.front {call : Call} {h : ℕ} (hlate : LateHit g call h) :
    front g call = some h := by
  obtain ⟨-, hnone, id, hfind⟩ := hlate
  simp only [Critical.front, hnone, hfind]

theorem leads_front (hg : g.Traced) {call next : Call} (h : Leads g call next)
    (hstart : call.startTs = next.startTs) : ∃ m w, FrontStep g call next m w := by
  have hnonempty := h.nonempty
  obtain ⟨startTs, endTs, tid⟩ := next
  obtain ⟨source, hmem⟩ := h
  cases mem_callScript hg.navigable hmem with
  | @late m _ first hit node hlate hw hfirst hwalk hhit hle hsource =>
      obtain ⟨hlt, hts⟩ := hg.wakes hw
      rw [← tsOf_of_heap hhit] at hle
      have hlabel : g.label source = some (g.tsOf source, node.tid) := by
        rw [label_of_heap hsource, tsOf_of_heap hsource]
      refine ⟨m, source, hnonempty, hlate.front, hlt, hts.le, hlabel, ?_, ?_, ?_⟩
      · show hit.ts ≤ g.tsOf source
        rw [hts, tsOf_of_heap hhit]
      · show min call.endTs (g.tsOf source) ≤ hit.ts
        rw [hts, tsOf_of_heap hhit]
        exact min_le_right _ _
      · intro hcall _
        refine .late hlate hcall.symm hw ?_
        rw [hlabel, hts, hcall]
  | traverse hsome hn hstep =>
      exact traverse_front hg hnonempty hsome hn hstep hstart
  | lateTraverse hfirst hafter hwalk hstep =>
      cases hstep with
      | wait hwalk' _ _ _ _ hto hmem =>
          obtain ⟨rfl, -⟩ := blockedScript_recurse hg.navigable hto hmem
          have hk := hg.le_tsOf_of_walk hwalk
          have hk' := hg.le_tsOf_of_walk hwalk'
          have hmax : call.startTs = max call.startTs _ := hstart
          omega

/-- The thread starts late, and its first wake-up ends the window. -/
def LateTie (g : CriticalGraph) (call : Call) : Prop :=
  ∃ h, LateHit g call h ∧ g.tsOf h = call.endTs

/-- The front of a call, compared to a node of its thread that is not before the
end of the window. -/
theorem front_le (hg : g.Traced) {call : Call} {m w : ℕ} (hnonempty : call.startTs < call.endTs)
    (hfront : front g call = some m) (hlabel : g.label w = some (g.tsOf w, call.tid))
    (hend : call.endTs ≤ g.tsOf w) :
    g.tsOf m ≤ g.tsOf w ∧ ((LateTie g call ∧ g.tsOf m = call.endTs) ∨ m ≤ w) := by
  simp only [Critical.front] at hfront
  split at hfront
  · next n hsome =>
      obtain ⟨id, hslot, hfront⟩ := Option.bind_eq_some_iff.mp hfront
      obtain ⟨edge, hedge, hfront⟩ := Option.bind_eq_some_iff.mp hfront
      split at hfront
      · next hblocked =>
          obtain rfl := Option.some.inj hfront
          obtain ⟨hn, hnStart⟩ := mem_of_getNodeIntersecting hg.navigable hsome
          have hnLabel := hg.owned.label_of_mem hn
          obtain rfl := hg.sound.endpoint_eq not_false hslot hedge
          obtain ⟨ts, t, ts', t', hfits⟩ := hg.fits hslot hedge
          have hfrom : g.label edge.fromNode = some (g.tsOf edge.fromNode, call.tid) := hnLabel
          have hlt : edge.fromNode < w := by
            by_contra hle
            have hts := hg.clocked.tsOf_le (not_lt.mp hle) hlabel hfrom
            have hstart : g.tsOf edge.fromNode ≤ call.startTs := hnStart
            omega
          have hle : edge.toNode ≤ w := by
            by_contra hw
            rw [hfits.fromLabel] at hfrom
            obtain ⟨-, rfl⟩ := Prod.mk.inj (Option.some.inj hfrom)
            exact hfits.next (.inl rfl) hblocked w _ hlt (not_le.mp hw) hlabel
          exact ⟨hg.clocked.tsOf_le hle hfits.toLabel hlabel, .inr hle⟩
      · cases hfront
  · next hnone =>
      split at hfront
      · next h id hfind =>
          obtain rfl := Option.some.inj hfront
          have hlate : LateHit g call h := ⟨hnonempty, hnone, id, hfind⟩
          obtain ⟨id, -, hslot, hle⟩ := hlate.woken hg.navigable
          refine ⟨hle.trans hend, ?_⟩
          -- At the end of the window, the woken node may have been created after the other one.
          by_cases htie : g.tsOf h = call.endTs
          · exact .inl ⟨⟨h, hlate, htie⟩, htie⟩
          · refine .inr ?_
            by_contra hlt
            obtain ⟨label, hhit⟩ := label_of_slot hslot
            have hts := hg.clocked.tsOf_le (not_le.mp hlt).le hlabel hhit
            omega
      · cases hfront
  · cases hfront

/-! ### Cycles of calls -/

/-- Two calls in a row keep the start of the window. -/
def LeadsOn (g : CriticalGraph) (call next : Call) : Prop :=
  (Leads g call next ∧ call.startTs = next.startTs) ∧
    ∃ last, Leads g next last ∧ next.startTs = last.startTs

/-- The timestamp of the front of a call. -/
def frontTs (g : CriticalGraph) (call : Call) : ℕ := g.tsOf ((front g call).getD 0)

/-- The front moves back in time, and in the order of creation unless it is the
first wake-up of a thread that starts late. -/
theorem LeadsOn.front (hg : g.Traced) {call next : Call} (h : LeadsOn g call next) :
    ∃ m m' w, FrontStep g call next m w ∧ front g next = some m' ∧ g.tsOf m' ≤ g.tsOf w ∧
      ((LateTie g next ∧ g.tsOf m' = next.endTs) ∨ m' < m) := by
  obtain ⟨⟨hleads, hstart⟩, last, hnext, hstart'⟩ := h
  obtain ⟨m, w, hfront⟩ := leads_front hg hleads hstart
  obtain ⟨m', w', hfront'⟩ := leads_front hg hnext hstart'
  obtain ⟨hts, hcases⟩ := front_le hg hfront'.nonempty hfront'.front hfront.label hfront.endTs_le
  exact ⟨m, m', w, hfront, hfront'.front, hts, hcases.imp_right (lt_of_le_of_lt · hfront.lt)⟩

/-- When the front is at the end of the window and does not move back in time, the
window stays the same. -/
theorem LeadsOn.waitsFor (hg : g.Traced) {call next : Call} (h : LeadsOn g call next)
    (hlevel : frontTs g call = frontTs g next) (hend : frontTs g call = call.endTs) :
    next.startTs = call.startTs ∧ next.endTs = call.endTs ∧
      WaitsFor g call.startTs call.endTs call.tid next.tid := by
  obtain ⟨m, m', w, hstep, hfront', hts, -⟩ := h.front hg
  simp only [frontTs, hstep.front, hfront', Option.getD_some] at hlevel hend
  have hle := hstep.tsOf_le
  have hnext := hstep.endTs_le
  have hnext' := hstep.le_endTs
  have hw : g.tsOf w = call.endTs := by omega
  have hnextEnd : next.endTs = call.endTs := by
    rw [hw, min_self] at hnext'
    omega
  exact ⟨h.1.2.symm, hnextEnd, hstep.waitsFor hend.symm (hnextEnd.trans hend.symm)⟩

/-- A search that repeats itself does so over one window, on threads that wait for
each other. -/
theorem exists_waitsFor_cycle (hg : g.Traced) {query : Call}
    (hcycle : TransGen (Leads g) query query) :
    ∃ call, ReflTransGen (Leads g) query call ∧
      TransGen (WaitsFor g call.startTs call.endTs) call.tid call.tid := by
  -- Along the cycle the start stays the same, so that every call has a front.
  have hstart : TransGen (fun x y => Leads g x y ∧ x.startTs = y.startTs) query query :=
    Cycles.constant (f := fun call : Call => OrderDual.toDual call.startTs)
      (fun _ _ hleads => hleads.start_le) hcycle le_rfl
  have hleadsOn : TransGen (LeadsOn g) query query := by
    obtain ⟨next, hnext, -⟩ := TransGen.head'_iff.mp hstart
    exact Cycles.continued hstart ⟨next, hnext⟩
  -- No front lies before the one before, so they all have the same timestamp.
  have hlevel : TransGen (fun x y => LeadsOn g x y ∧ frontTs g x = frontTs g y) query query := by
    refine Cycles.constant ?_ hleadsOn le_rfl
    intro x y hxy
    obtain ⟨m, m', w, hstep, hfront', hts, -⟩ := hxy.front hg
    simp only [frontTs, hstep.front, hfront', Option.getD_some]
    exact hts.trans hstep.tsOf_le
  -- Not every front was created before the one before.
  obtain ⟨call, ⟨-, hend⟩, hto, hback⟩ := Cycles.exists_of_cycle
    (f := fun call => (front g call).getD 0)
    (P := fun call => LateTie g call ∧ frontTs g call = call.endTs) (by
      rintro x y ⟨hxy, -⟩
      obtain ⟨m, m', w, hstep, hfront', -, hcases⟩ := hxy.front hg
      simp only [frontTs, hstep.front, hfront', Option.getD_some]
      exact hcases) hlevel le_rfl
  have hleads : ReflTransGen (Leads g) query call :=
    (TransGen.mono (fun _ _ h => h.1.1.1) _ _ hto).to_reflTransGen
  refine ⟨call, hleads, ?_⟩
  -- From there on the windows are the same.
  have hwindow : ∀ {last}, TransGen (fun x y => LeadsOn g x y ∧ frontTs g x = frontTs g y)
      call last → last.startTs = call.startTs ∧ last.endTs = call.endTs ∧
        frontTs g last = call.endTs ∧
        TransGen (WaitsFor g call.startTs call.endTs) call.tid last.tid := by
    intro last hpath
    induction hpath with
    | single hstep =>
        obtain ⟨hs, he, hwaits⟩ := hstep.1.waitsFor hg hstep.2 hend
        exact ⟨hs, he, hstep.2 ▸ hend, .single hwaits⟩
    | tail _ hstep ih =>
        obtain ⟨hs, he, hfront, hpath⟩ := ih
        obtain ⟨hs', he', hwaits⟩ := hstep.1.waitsFor hg hstep.2 (hfront.trans he.symm)
        rw [hs, he] at hwaits
        exact ⟨hs'.trans hs, he'.trans he, hstep.2 ▸ hfront, hpath.tail hwaits⟩
  exact (hwindow (TransGen.trans_right hback hto)).2.2.2

end TibeeCompare.Critical

namespace TibeeCompare.CriticalBlocks

open Critical Critical.CriticalGraph Relation

/-- A search ends exactly when no thread that it gets to waits for itself, over one
window, through wake-ups that all take place at its end. -/
theorem terminates_iff {kInvalidThread : ℕ} {b : CriticalBlock}
    (hb : Reachable kInvalidThread OnlyEvents b) (startTs endTs tid : ℕ) :
    (∃ fuel path, computeCriticalPath b.graph fuel startTs endTs tid = .ok path) ↔
      ∀ call, Reaches b.graph ⟨startTs, endTs, tid⟩ call →
        ¬ TransGen (WaitsFor b.graph call.startTs call.endTs) call.tid call.tid := by
  have hg := hb.traced
  have hends : (∃ fuel path, computeCriticalPath b.graph fuel startTs endTs tid = .ok path) ↔
      ∃ fuel, computeCriticalPath b.graph fuel startTs endTs tid ≠ .error .outOfFuel := by
    refine exists_congr fun fuel => ?_
    cases hrun : computeCriticalPath b.graph fuel startTs endTs tid with
    | ok path => simp
    | error fault =>
        obtain rfl := computeCriticalPath_fault hg.navigable hrun
        simp
  rw [hends, ends_iff_acyclic hg.navigable]
  constructor
  · intro hacyclic call hreaches hwaits
    refine hacyclic call hreaches ?_
    exact TransGen.lift (p := Leads b.graph) (fun tid => (⟨call.startTs, call.endTs, tid⟩ : Call))
      (fun _ _ h => WaitsFor.leads hg.navigable h) _ _ hwaits
  · intro hwaits call hreaches hcycle
    obtain ⟨call', hpath, hcycle'⟩ := exists_waitsFor_cycle hg hcycle
    exact hwaits call' (reaches_iff.mpr ((reaches_iff.mp hreaches).trans hpath)) hcycle'

/-- Two threads wake up each other at one time. -/
def mutualWakeUps : List Step :=
  [.event 5 (.threadStatus 1 (some .runUsermode)),
    .event 5 (.threadStatus 2 (some .runUsermode)),
    .event 10 (.ttwu 0 1 2),
    .event 10 (.ttwu 0 2 1)]

theorem follows_mutualWakeUps : Follows 4294967295 OnlyEvents .initial mutualWakeUps := by decide

/-- The window starts when the threads do. -/
theorem terminates_mutualWakeUps :
    (∃ fuel path, computeCriticalPath (CriticalBlock.after 4294967295 mutualWakeUps).graph fuel
        5 10 1 = .ok path) ∧
      ∀ call, Reaches (CriticalBlock.after 4294967295 mutualWakeUps).graph ⟨5, 10, 1⟩ call →
        ¬ TransGen (WaitsFor (CriticalBlock.after 4294967295 mutualWakeUps).graph
          call.startTs call.endTs) call.tid call.tid := by
  have hscript : callScript (CriticalBlock.after 4294967295 mutualWakeUps).graph 5 10 1 =
      [.ok (.insert ⟨5, 10, 1, .run⟩)] := by decide
  have hends : ∃ fuel path, computeCriticalPath
      (CriticalBlock.after 4294967295 mutualWakeUps).graph fuel 5 10 1 = .ok path := by
    refine ⟨1, [⟨5, 10, 1, .run⟩], ?_⟩
    rw [computeCriticalPath, computeCriticalPathRecursive_of_script hscript]
    rfl
  exact ⟨hends, (terminates_iff follows_mutualWakeUps.reachable_after 5 10 1).mp hends⟩

/-- When the window starts before the threads do, each is searched for what woke it
up, which is the other one, over the same window. -/
theorem not_terminates_mutualWakeUps :
    Reachable 4294967295 OnlyEvents (.after 4294967295 mutualWakeUps) ∧
      ¬ ∃ fuel path, computeCriticalPath (CriticalBlock.after 4294967295 mutualWakeUps).graph fuel
        0 10 1 = .ok path := by
  refine ⟨follows_mutualWakeUps.reachable_after, ?_⟩
  have hfirst : callScript (CriticalBlock.after 4294967295 mutualWakeUps).graph 0 10 1 =
      [.ok (.recurse 4 0 10 2)] := by decide
  have hsecond : callScript (CriticalBlock.after 4294967295 mutualWakeUps).graph 0 10 2 =
      [.ok (.recurse 2 0 10 1)] := by decide
  have hfuel : ∀ fuel path, ∀ tid ∈ [1, 2],
      computeCriticalPathRecursive (CriticalBlock.after 4294967295 mutualWakeUps).graph fuel
        0 10 tid path = .error .outOfFuel := by
    intro fuel
    induction fuel with
    | zero => exact fun _ _ _ => rfl
    | succ fuel ih =>
        intro path tid htid
        rcases List.mem_cons.mp htid with rfl | htid
        · rw [computeCriticalPathRecursive_of_script hfirst, Script.run_ok_cons, Action.perform,
            ih path 2 (by decide)]
          rfl
        · obtain rfl := List.mem_singleton.mp htid
          rw [computeCriticalPathRecursive_of_script hsecond, Script.run_ok_cons, Action.perform,
            ih path 1 (by decide)]
          rfl
  rintro ⟨fuel, path, hrun⟩
  rw [computeCriticalPath, hfuel fuel [] 1 (by decide)] at hrun
  cases hrun

end TibeeCompare.CriticalBlocks
