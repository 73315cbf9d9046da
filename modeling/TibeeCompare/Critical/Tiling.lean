import TibeeCompare.Critical.Threads

/-!
On a graph whose threads are chains and whose wake-ups take no time, the path
tiles the queried window.

A call fills its window when the thread has a node at or after the end of the
window, the end does not cut a wait, and the thread existed at the start or has a
node exactly at the end: this is `Anchored`. Every recursive call is anchored by
the node that was woken up, so the property is carried through the recursion.
-/

namespace TibeeCompare.Critical

open Intervals

namespace CriticalGraph

/-- Every vertical edge joins two nodes of the same timestamp. -/
def Level (g : CriticalGraph) : Prop :=
  ∀ e edge, g.edges e = some edge → edge.type = .vertical →
    ∃ ts t t', g.label edge.fromNode = some (ts, t) ∧ g.label edge.toNode = some (ts, t')

/-- The timestamp lies strictly inside a `kWaitBlocked` or `kNetwork` edge of the
thread. -/
def InsideBlocked (g : CriticalGraph) (tid ts : ℕ) : Prop :=
  ∃ n e edge, n ∈ g.nodesOf tid ∧ g.slot n .outHorizontal = some e ∧
    g.edges e = some edge ∧ edge.type.isBlocked ∧ g.tsOf n < ts ∧ ts < g.tsOf edge.toNode

/-- What a call needs in order to fill its window. -/
structure Anchored (g : CriticalGraph) (call : Call) : Prop where
  le : call.startTs ≤ call.endTs
  reach : ∃ n ∈ g.nodesOf call.tid, call.endTs ≤ g.tsOf n
  notInside : ¬ g.InsideBlocked call.tid call.endTs
  begin : (∃ n ∈ g.nodesOf call.tid, g.tsOf n ≤ call.startTs) ∨
    ∃ n ∈ g.nodesOf call.tid, g.tsOf n = call.endTs

/-- No wait edge spans a node of its own thread. -/
theorem not_insideBlocked_of_node {g : CriticalGraph} (hg : g.Threaded) {tid n : ℕ}
    (hn : n ∈ g.nodesOf tid) : ¬ g.InsideBlocked tid (g.tsOf n) := by
  rintro ⟨a, e, edge, ha, hslot, hedge, -, hlt, hgt⟩
  obtain ⟨pre, post, hsplit⟩ := List.append_of_mem ha
  have hlinked := hg.linked tid
  have hordered := hg.timeOrdered tid
  rw [hsplit] at hlinked hordered hn
  obtain ⟨-, htail, hcross⟩ := List.pairwise_append.mp hordered
  have hlinked := hlinked.suffix
  cases post with
  | nil =>
      rw [show g.slot a .outHorizontal = none from hlinked] at hslot
      cases hslot
  | cons b post =>
      obtain ⟨e', edge', hslot', hedge', rfl⟩ := hlinked.next
      rw [hslot] at hslot'
      obtain rfl := Option.some.inj hslot'
      rw [hedge] at hedge'
      obtain rfl := Option.some.inj hedge'
      rcases List.mem_append.mp hn with hn | hn
      · have := hcross n hn a List.mem_cons_self
        omega
      · rcases List.mem_cons.mp hn with rfl | hn
        · exact lt_irrefl _ hlt
        · rcases List.mem_cons.mp hn with rfl | hn
          · exact lt_irrefl _ hgt
          · have := (List.pairwise_cons.mp (List.pairwise_cons.mp htail).2).1 n hn
            omega

/-- A node exactly at the end of the window anchors a call. -/
theorem anchored_of_node {g : CriticalGraph} (hg : g.Threaded) {startTs tid n : ℕ}
    (hn : n ∈ g.nodesOf tid) (hle : startTs ≤ g.tsOf n) :
    g.Anchored ⟨startTs, g.tsOf n, tid⟩ where
  le := hle
  reach := ⟨n, hn, le_refl _⟩
  notInside := not_insideBlocked_of_node hg hn
  begin := .inr ⟨n, hn, rfl⟩

end CriticalGraph

/-- The script fills the span, and the calls that it makes over a window that is
not empty are anchored. -/
structure Script.Fills (g : CriticalGraph) (lo : ℕ) (script : Script) (hi : ℕ) : Prop where
  tiles : script.Tiles lo hi
  anchored : ∀ source startTs endTs tid, .ok (.recurse source startTs endTs tid) ∈ script →
    startTs < endTs → g.Anchored ⟨startTs, endTs, tid⟩

namespace Script.Fills

variable {g : CriticalGraph}

theorem nil (g : CriticalGraph) (ts : ℕ) : Script.Fills g ts [] ts := by
  refine ⟨rfl, ?_⟩
  rintro _ _ _ _ ⟨⟩

theorem append {lo mid hi : ℕ} {first second : Script} (hfirst : first.Fills g lo mid)
    (hsecond : second.Fills g mid hi) : Script.Fills g lo (first ++ second) hi where
  tiles := hfirst.tiles.append hsecond.tiles
  anchored := by
    intro source startTs endTs tid hmem
    rcases List.mem_append.mp hmem with hmem | hmem
    · exact hfirst.anchored source startTs endTs tid hmem
    · exact hsecond.anchored source startTs endTs tid hmem

theorem cons {lo mid hi : ℕ} {step : Except Fault Action} {script : Script}
    (hstep : Script.Fills g lo [step] mid) (hscript : script.Fills g mid hi) :
    Script.Fills g lo (step :: script) hi :=
  hstep.append hscript

theorem insert {startTs endTs tid : ℕ} {type : CriticalEdgeType} (hle : startTs ≤ endTs) :
    Script.Fills g startTs [.ok (.insert ⟨startTs, endTs, tid, type⟩)] endTs where
  tiles := ⟨rfl, hle, rfl⟩
  anchored := by simp

theorem lateStart {first : Option ℕ} {startTs segmentEnd endTs tid : ℕ} {type : CriticalEdgeType}
    (hle : startTs ≤ segmentEnd) :
    Script.Fills g startTs [.ok (.lateStart first ⟨startTs, segmentEnd, tid, type⟩ endTs)]
      segmentEnd where
  tiles := ⟨rfl, hle, rfl⟩
  anchored := by simp

theorem recurse {source startTs endTs tid : ℕ} (hle : startTs ≤ endTs)
    (hcall : startTs < endTs → g.Anchored ⟨startTs, endTs, tid⟩) :
    Script.Fills g startTs [.ok (.recurse source startTs endTs tid)] endTs where
  tiles := ⟨rfl, hle, rfl⟩
  anchored := by
    intro source' startTs' endTs' tid' hmem
    obtain ⟨rfl, rfl, rfl, rfl⟩ : source' = source ∧ startTs' = startTs ∧ endTs' = endTs ∧
        tid' = tid := by simpa using hmem
    exact hcall

end Script.Fills

/-! ### The scripts of a call -/

section

open CriticalGraph

variable {g : CriticalGraph}

/-- The source of a wake-up is a node of another thread at the same timestamp. -/
theorem wakeUp_source (hbuilt : Built g) (hlevel : g.Level) {n id : ℕ}
    (hslot : g.slot n .inVertical = some id) :
    ∃ edge node, g.edges id = some edge ∧ g.heap edge.fromNode = some node ∧
      edge.fromNode ∈ g.nodesOf node.tid ∧ g.tsOf edge.fromNode = g.tsOf n := by
  obtain ⟨edge, hedge, rfl⟩ := hbuilt.slotsSound.stored not_false hslot
  have htype := hbuilt.verticalTyped _ _ _ (.inl hslot) hedge
  obtain ⟨ts, t, t', hfrom, hto⟩ := hlevel id edge hedge htype
  obtain ⟨node, hnode, hts, rfl⟩ := heap_of_label hfrom
  refine ⟨edge, node, hedge, hnode, hbuilt.owned.mem_nodesOf.mpr ⟨ts, hfrom⟩, ?_⟩
  rw [tsOf_of_label hfrom]
  exact (tsOf_of_label hto).symm

/-- A wait that lies in the window with its whole end, or with none of it. -/
theorem blockedScript_fills (hbuilt : Built g) (hg : g.Threaded) (hlevel : g.Level)
    (hnetwork : g.nodesOf kNetworkThread = []) {edge : CriticalEdge} {label : ℕ × ℕ}
    {startTs endTs : ℕ} (hto : g.label edge.toNode = some label) (hle : startTs ≤ endTs)
    (hend : startTs < endTs → endTs = g.tsOf edge.toNode) :
    (blockedScript g edge startTs endTs).Fills g startTs endTs := by
  obtain ⟨toNode, htoNode, -⟩ := heap_of_label hto
  unfold blockedScript
  rw [deref_of_heap htoNode, reading_ok]
  cases hin : toNode.edge .inVertical with
  | none => exact Script.Fills.insert hle
  | some id =>
      rw [← slot_of_heap htoNode] at hin
      obtain ⟨wakeUp, source, hwakeUp, hsource, hmem, hts⟩ := wakeUp_source hbuilt hlevel hin
      simp only [getEdge, hwakeUp, reading_ok, deref_of_heap hsource]
      have hthread : source.tid ≠ kNetworkThread := by
        intro heq
        rw [heq, hnetwork] at hmem
        cases hmem
      rw [if_neg hthread]
      refine Script.Fills.cons (Script.Fills.insert (le_refl _))
        (Script.Fills.recurse hle ?_)
      intro hlt
      obtain rfl : endTs = g.tsOf wakeUp.fromNode := by rw [hend hlt, hts]
      exact anchored_of_node hg hmem hle

theorem edgeScript_fills (hbuilt : Built g) (hg : g.Threaded) (hlevel : g.Level)
    (hnetwork : g.nodesOf kNetworkThread = []) {edge : CriticalEdge} {label : ℕ × ℕ}
    {startTs endTs : ℕ} (tid : ℕ) (hto : g.label edge.toNode = some label)
    (hle : startTs ≤ endTs)
    (hend : edge.type.isBlocked → startTs < endTs → endTs = g.tsOf edge.toNode) :
    (edgeScript g edge startTs endTs tid).Fills g startTs endTs := by
  unfold edgeScript
  split
  · next hblocked => exact blockedScript_fills hbuilt hg hlevel hnetwork hto hle (hend hblocked)
  · split
    · exact Script.Fills.insert hle
    · next heq =>
        obtain rfl : startTs = endTs := not_not.mp heq
        exact Script.Fills.nil g startTs

/-- The last loop, from a node of the thread on: the part of the window after
this node is filled. The induction is on the rest of the chain. -/
theorem traverseScript_fills (hbuilt : Built g) (hg : g.Threaded) (hlevel : g.Level)
    (hnetwork : g.nodesOf kNetworkThread = []) {startTs endTs tid : ℕ} (hlt : startTs < endTs)
    (hinside : ¬ g.InsideBlocked tid endTs) {pre nodes : List ℕ} {n : ℕ}
    (hsplit : g.nodesOf tid = pre ++ n :: nodes) (hafter : ∀ m ∈ nodes, startTs < g.tsOf m)
    (hreach : ∃ m ∈ n :: nodes, endTs ≤ g.tsOf m) {rounds : ℕ}
    (hrounds : (n :: nodes).length < rounds) :
    (traverseScript g startTs endTs tid rounds (some n)).Fills g
      (min endTs (max startTs (g.tsOf n))) endTs := by
  induction nodes generalizing pre n rounds with
  | nil =>
      obtain ⟨m, hm, hend⟩ := hreach
      obtain rfl := List.mem_singleton.mp hm
      have hlive := hsplit ▸ hbuilt.owned.liveOn tid
      have hlast : g.slot m .outHorizontal = none := (hsplit ▸ hg.linked tid).suffix
      obtain ⟨node, hnode, hts, -⟩ := hlive.suffix.heap hm
      rw [slot_of_heap hnode] at hlast
      obtain ⟨rounds, rfl⟩ : ∃ k, rounds = k + 1 := ⟨rounds - 1, by simp at hrounds; omega⟩
      have hlo : min endTs (max startTs (g.tsOf m)) = endTs := by omega
      rw [hlo, traverseScript_last (deref_of_heap hnode) hlast]
      exact Script.Fills.nil g endTs
  | cons m nodes ih =>
      have hlive := hsplit ▸ hbuilt.owned.liveOn tid
      have hordered := hsplit ▸ hg.timeOrdered tid
      have hlinked := (hsplit ▸ hg.linked tid).suffix
      obtain ⟨e, edge, hslot, hedge, rfl⟩ := hlinked.next
      obtain ⟨node, hnode, hts, -⟩ := hlive.suffix.heap (List.mem_cons_self (a := n))
      have hlabel := hlive.suffix edge.toNode (List.mem_cons_of_mem n List.mem_cons_self)
      obtain ⟨next, hnext, hnextTs, -⟩ := heap_of_label hlabel
      have hstep : g.tsOf n ≤ g.tsOf edge.toNode :=
        (List.pairwise_cons.mp (List.pairwise_append.mp hordered).2.1).1 _ List.mem_cons_self
      have hnextAfter := hafter edge.toNode List.mem_cons_self
      obtain ⟨rounds, rfl⟩ : ∃ k, rounds = k + 1 := ⟨rounds - 1, by simp at hrounds; omega⟩
      rcases Nat.lt_or_ge endTs node.ts with hpast | hle
      · have hlo : min endTs (max startTs (g.tsOf n)) = endTs := by omega
        rw [hlo, traverseScript_past (deref_of_heap hnode) hpast]
        exact Script.Fills.nil g endTs
      have hn : n ∈ g.nodesOf tid := by simp [hsplit]
      -- The end of the window does not cut a wait.
      have hend : edge.type.isBlocked → max startTs node.ts < min endTs next.ts →
          min endTs next.ts = g.tsOf edge.toNode := by
        intro hblocked hwindow
        have hcut : ¬ (g.tsOf n < endTs ∧ endTs < g.tsOf edge.toNode) :=
          fun h => hinside ⟨n, e, edge, hn, hslot, hedge, hblocked, h⟩
        omega
      rw [slot_of_heap hnode] at hslot
      rw [traverseScript_step (deref_of_heap hnode) hle hslot hedge (deref_of_heap hnext)]
      have hfirst := edgeScript_fills hbuilt hg hlevel hnetwork tid hlabel
        (show max startTs node.ts ≤ min endTs next.ts by omega) hend
      have hreach' : ∃ k ∈ edge.toNode :: nodes, endTs ≤ g.tsOf k := by
        obtain ⟨k, hk, hendk⟩ := hreach
        rcases List.mem_cons.mp hk with rfl | hk
        · exact ⟨edge.toNode, List.mem_cons_self, hendk.trans hstep⟩
        · exact ⟨k, hk, hendk⟩
      have hsplit' : g.nodesOf tid = (pre ++ [n]) ++ edge.toNode :: nodes := by simp [hsplit]
      have hrounds' : (edge.toNode :: nodes).length < rounds := by simp at hrounds ⊢; omega
      have hrest := ih hsplit' (fun k hk => hafter k (List.mem_cons_of_mem _ hk)) hreach'
        hrounds'
      have hlo : min endTs (max startTs (g.tsOf n)) = max startTs node.ts := by omega
      have hmid : min endTs (max startTs (g.tsOf edge.toNode)) = min endTs next.ts := by omega
      rw [hlo]
      rw [hmid] at hrest
      exact hfirst.append hrest

/-- From a node at or before the start of the window. -/
theorem callScript_fills_of_node (hbuilt : Built g) (hg : g.Threaded) (hlevel : g.Level)
    (hnetwork : g.nodesOf kNetworkThread = []) {startTs endTs tid : ℕ} (hlt : startTs < endTs)
    (hinside : ¬ g.InsideBlocked tid endTs)
    (hreach : ∃ n ∈ g.nodesOf tid, endTs ≤ g.tsOf n)
    (hexisted : ∃ n ∈ g.nodesOf tid, g.tsOf n ≤ startTs) :
    (callScript g startTs endTs tid).Fills g startTs endTs := by
  have howned := hbuilt.owned
  obtain ⟨last, hlast, hend⟩ := hreach
  obtain ⟨pre, n, m, rest, hsplit, hpre, hn, hrest⟩ :=
    exists_cut (hg.timeOrdered tid) hexisted ⟨last, hlast, by omega⟩
  rw [callScript_of_node hlt (getNodeIntersecting_some hsplit howned (hg.linked tid) hpre hn
    (hrest m List.mem_cons_self))]
  have hreach : ∃ k ∈ n :: m :: rest, endTs ≤ g.tsOf k := by
    rw [hsplit] at hlast
    rcases List.mem_append.mp hlast with hk | hk
    · have := hpre last hk
      omega
    · exact ⟨last, hk, hend⟩
  have hfills := traverseScript_fills hbuilt hg hlevel hnetwork hlt hinside hsplit hrest hreach
    (howned.length_lt_rounds hsplit)
  have hlo : min endTs (max startTs (g.tsOf n)) = startTs := by omega
  rwa [hlo] at hfills

/-- Where the thread starts late, a node lies exactly at the end of the window. -/
theorem callScript_fills_of_late (hbuilt : Built g) (hg : g.Threaded) (hlevel : g.Level)
    (hnetwork : g.nodesOf kNetworkThread = []) {startTs endTs tid : ℕ} (hlt : startTs < endTs)
    (hinside : ¬ g.InsideBlocked tid endTs)
    (hlate : ∀ n ∈ g.nodesOf tid, startTs < g.tsOf n) {final : ℕ} (hfinal : final ∈ g.nodesOf tid)
    (hfinalTs : g.tsOf final = endTs) :
    (callScript g startTs endTs tid).Fills g startTs endTs := by
  have howned := hbuilt.owned
  have hordered := hg.timeOrdered tid
  have hlive := howned.liveOn tid
  have hnone := getNodeIntersecting_none hlate
  have hfirst := getNodeStartingAfter_eq hlate
  obtain ⟨hit, hfind, hhit⟩ := findWakeUp_linked endTs hlive (hg.linked tid)
    (howned.length_lt_rounds (List.nil_append _).symm)
  cases hit with
  -- no node was woken: the steps begin at the first one
  | none =>
      rw [callScript_of_missed hlt hnone hfirst hfind]
      obtain ⟨n, rest, hsplit⟩ := List.exists_cons_of_ne_nil (List.ne_nil_of_mem hfinal)
      have hsplit' : g.nodesOf tid = [] ++ n :: rest := hsplit
      rw [hsplit] at hlate hordered hfinal
      have hn : g.tsOf n ≤ endTs := by
        rcases List.mem_cons.mp hfinal with rfl | hmem
        · exact hfinalTs.le
        · exact hfinalTs ▸ (List.pairwise_cons.mp hordered).1 final hmem
      have hfills := traverseScript_fills hbuilt hg hlevel hnetwork hlt hinside hsplit'
        (fun k hk => hlate k (List.mem_cons_of_mem _ hk)) ⟨final, hfinal, hfinalTs.ge⟩
        (howned.length_lt_rounds hsplit')
      have hnlate := hlate n List.mem_cons_self
      have hlo : min endTs (max startTs (g.tsOf n)) = g.tsOf n := by omega
      rw [hlo] at hfills
      rw [hsplit]
      exact Script.Fills.cons (Script.Fills.lateStart hnlate.le) hfills
  -- the call for the thread that woke the node fills what is before it
  | some hit =>
      obtain ⟨n, id⟩ := hit
      obtain ⟨pre, post, hsplit, hn, hslot⟩ := hhit n id rfl
      rw [hsplit] at hlate hordered hfinal hlive
      obtain ⟨node, hnode, hts, -⟩ := hlive.suffix.heap (List.mem_cons_self (a := n))
      obtain ⟨wakeUp, source, hwakeUp, hsource, hmem, hsourceTs⟩ :=
        wakeUp_source hbuilt hlevel hslot
      rw [callScript_of_woken hlt hnone hfirst hfind (deref_of_heap hnode) hwakeUp
        (deref_of_heap hsource)]
      have hnlate := hlate n (by simp)
      have hreach : ∃ k ∈ n :: post, endTs ≤ g.tsOf k := by
        rcases List.mem_append.mp hfinal with hk | hk
        · have := (List.pairwise_append.mp hordered).2.2 final hk n List.mem_cons_self
          exact ⟨n, List.mem_cons_self, by omega⟩
        · exact ⟨final, hk, hfinalTs.ge⟩
      have hfills := traverseScript_fills hbuilt hg hlevel hnetwork hlt hinside hsplit
        (fun k hk => hlate k (by simp [hk])) hreach (howned.length_lt_rounds hsplit)
      have hlo : min endTs (max startTs (g.tsOf n)) = node.ts := by omega
      rw [hlo] at hfills
      refine Script.Fills.cons (Script.Fills.recurse (by omega) ?_) hfills
      intro _
      rw [hts, ← hsourceTs]
      exact anchored_of_node hg hmem (by omega)

/-- One call fills its window. -/
theorem callScript_fills (hbuilt : Built g) (hg : g.Threaded) (hlevel : g.Level)
    (hnetwork : g.nodesOf kNetworkThread = []) {call : Call} (hcall : g.Anchored call) :
    (call.script g).Fills g call.startTs call.endTs := by
  obtain ⟨startTs, endTs, tid⟩ := call
  obtain ⟨hle, hreach, hinside, hbegin⟩ := hcall
  simp only at hle hreach hinside hbegin ⊢
  rw [Call.script]
  rcases hle.eq_or_lt with rfl | hlt
  · rw [callScript, if_pos le_rfl]
    exact Script.Fills.nil g startTs
  by_cases hexisted : ∃ n ∈ g.nodesOf tid, g.tsOf n ≤ startTs
  · exact callScript_fills_of_node hbuilt hg hlevel hnetwork hlt hinside hreach hexisted
  · have hlate : ∀ n ∈ g.nodesOf tid, startTs < g.tsOf n := by
      intro n hn
      by_contra hle
      exact hexisted ⟨n, hn, by omega⟩
    obtain ⟨final, hfinal, hfinalTs⟩ := hbegin.resolve_left hexisted
    exact callScript_fills_of_late hbuilt hg hlevel hnetwork hlt hinside hlate hfinal hfinalTs

/-- Every call that an anchored query leads to, over a window that is not empty,
is anchored as well. -/
theorem reaches_anchored (hbuilt : Built g) (hg : g.Threaded) (hlevel : g.Level)
    (hnetwork : g.nodesOf kNetworkThread = []) {query call : Call} (hquery : g.Anchored query)
    (hcall : Reaches g query call) : call.startTs < call.endTs → g.Anchored call := by
  induction hcall with
  | self => exact fun _ => hquery
  | @recurse call source startTs endTs tid hcall hmem ih =>
      by_cases hempty : call.startTs < call.endTs
      · exact (callScript_fills hbuilt hg hlevel hnetwork (ih hempty)).anchored _ _ _ _ hmem
      · simp only [Call.script, callScript] at hmem
        rw [if_pos (by omega)] at hmem
        cases hmem

/-- The script of a reached call fills its window, be it empty or not. -/
theorem reaches_fills (hbuilt : Built g) (hg : g.Threaded) (hlevel : g.Level)
    (hnetwork : g.nodesOf kNetworkThread = []) {query call : Call} (hquery : g.Anchored query)
    (hcall : Reaches g query call) :
    (call.startTs ≤ call.endTs → (call.script g).Tiles call.startTs call.endTs) ∧
      ∀ fault, .error fault ∉ call.script g := by
  by_cases hempty : call.startTs < call.endTs
  · have hfills := callScript_fills hbuilt hg hlevel hnetwork
      (reaches_anchored hbuilt hg hlevel hnetwork hquery hcall hempty)
    exact ⟨fun _ => hfills.tiles, hfills.tiles.clean⟩
  · have hnil : call.script g = [] := by
      simp only [Call.script, callScript]
      rw [if_pos (by omega)]
    rw [hnil]
    exact ⟨fun hle => show call.startTs = call.endTs by omega, by simp⟩

end

/-- The path of a search that ends starts and ends with the window, and each
segment starts where the one before it ends. -/
theorem computeCriticalPath_tiles {g : CriticalGraph} (hbuilt : g.Built) (hg : g.Threaded)
    (hlevel : g.Level) (hnetwork : g.nodesOf kNetworkThread = []) {startTs endTs tid : ℕ}
    (hwindow : startTs < endTs) (hbegin : ∃ n ∈ g.nodesOf tid, g.tsOf n ≤ startTs)
    (hreach : ∃ n ∈ g.nodesOf tid, endTs ≤ g.tsOf n) (hinside : ¬ g.InsideBlocked tid endTs)
    {fuel : ℕ} (hends : computeCriticalPath g fuel startTs endTs tid ≠ .error .outOfFuel) :
    ∃ path, computeCriticalPath g fuel startTs endTs tid = .ok path ∧
      PathTiles startTs path endTs ∧
        (path.map fun segment => segment.endTs - segment.startTs).sum = endTs - startTs := by
  have hquery : g.Anchored ⟨startTs, endTs, tid⟩ := ⟨hwindow.le, hreach, hinside, .inl hbegin⟩
  have hself : Reaches g ⟨startTs, endTs, tid⟩ ⟨startTs, endTs, tid⟩ := .self
  have hfills := fun {call} (hcall : Reaches g ⟨startTs, endTs, tid⟩ call) =>
    reaches_fills hbuilt hg hlevel hnetwork hquery hcall
  cases hrun : computeCriticalPath g fuel startTs endTs tid with
  | error fault =>
      have hfuel := reaches_fault _
        (fun call hcall fault hmem => absurd hmem ((hfills hcall).2 fault)) fuel hself hrun
      rw [hfuel] at hrun
      exact absurd hrun hends
  | ok path =>
      have hkeeps := reaches_induction ExtendsTiling (by
        intro call hcall recurse hrec path path' hscript lo hle hpath
        exact Script.run_extendsTiling hrec ((hfills hcall).1 hle) hpath hscript)
        fuel hself hrun
      have htiles : PathTiles startTs path endTs := hkeeps startTs hwindow.le rfl
      exact ⟨path, rfl, htiles, htiles.sum_durations⟩

section

open CriticalGraph

/-- Thread 1 waits from 0 to 10 and is woken up by thread 2, which runs. -/
def wokenPair : CriticalGraph :=
  let g := ((empty.createNode 1).1.createNode 2).1.setTimestamp 10
  let g := ((g.createNode 1).1.createNode 2).1
  let g := g.withEdge ⟨.waitBlocked, 0, 2⟩ .outHorizontal
  let g := g.withEdge ⟨.run, 1, 3⟩ .outHorizontal
  g.withEdge ⟨.vertical, 3, 2⟩ .outVertical

theorem built_wokenPair : wokenPair.Built := by
  have hnodes := (((Built.empty.createNode 1).createNode 2).setTimestamp 10).createNode 1
  have hwait := (hnodes.createNode 2).createHorizontalEdge
    (show createHorizontalEdge _ .waitBlocked 0 2 = _ from createEdge_of_label rfl rfl)
  have hrun := hwait.createHorizontalEdge
    (show createHorizontalEdge _ .run 1 3 = _ from createEdge_of_label rfl rfl)
  exact hrun.createVerticalEdge
    (show createVerticalEdge _ 3 2 = _ from createEdge_of_label rfl rfl)

theorem threaded_wokenPair : wokenPair.Threaded :=
  Threaded.of_keys built_wokenPair.owned (by decide)

theorem level_wokenPair : wokenPair.Level := by
  intro e edge hedge htype
  have hlt : e < 3 := built_wokenPair.slotsSound.fresh hedge
  obtain rfl | rfl | rfl : e = 0 ∨ e = 1 ∨ e = 2 := by omega
  · cases hedge
    cases htype
  · cases hedge
    cases htype
  · cases hedge
    exact ⟨10, 2, 1, rfl, rfl⟩

theorem computeCriticalPath_tiles_wokenPair :
    ∃ path, computeCriticalPath wokenPair 2 2 10 1 = .ok path ∧ PathTiles 2 path 10 ∧
      (path.map fun segment => segment.endTs - segment.startTs).sum = 10 - 2 := by
  refine computeCriticalPath_tiles built_wokenPair threaded_wokenPair level_wokenPair rfl
    (by decide) ⟨0, by decide, by decide⟩ ⟨2, by decide, by decide⟩ ?_ (by decide)
  exact not_insideBlocked_of_node threaded_wokenPair (n := 2) (by decide)

/-- The last node of thread 1 has an edge back to a node of thread 2. -/
def strayEdge : CriticalGraph :=
  let g := ((empty.createNode 1).1.setTimestamp 5).createNode 2
  let g := (g.1.setTimestamp 10).createNode 1
  let g := g.1.withEdge ⟨.run, 0, 2⟩ .outHorizontal
  g.withEdge ⟨.run, 2, 1⟩ .outHorizontal

theorem built_strayEdge : strayEdge.Built := by
  have hnodes := ((((Built.empty.createNode 1).setTimestamp 5).createNode 2).setTimestamp
    10).createNode 1
  have hrun := hnodes.createHorizontalEdge
    (show createHorizontalEdge _ .run 0 2 = _ from createEdge_of_label rfl rfl)
  exact hrun.createHorizontalEdge
    (show createHorizontalEdge _ .run 2 1 = _ from createEdge_of_label rfl rfl)

theorem run_of_strayEdge {e : ℕ} {edge : CriticalEdge} (h : strayEdge.edges e = some edge) :
    edge.type = .run := by
  have hlt : e < 2 := built_strayEdge.slotsSound.fresh h
  obtain rfl | rfl : e = 0 ∨ e = 1 := by omega
  · cases h
    rfl
  · cases h
    rfl

/-- The search follows the edge back in time, and the path ends in the middle of the window. -/
theorem not_computeCriticalPath_tiles_strayEdge :
    strayEdge.Built ∧ strayEdge.TimeOrdered ∧ (∀ t, strayEdge.ChainedFrom (strayEdge.nodesOf t)) ∧
      strayEdge.Level ∧ strayEdge.nodesOf kNetworkThread = [] ∧
      (∃ n ∈ strayEdge.nodesOf 1, strayEdge.tsOf n ≤ 0) ∧
      (∃ n ∈ strayEdge.nodesOf 1, 10 ≤ strayEdge.tsOf n) ∧ ¬ strayEdge.InsideBlocked 1 10 ∧
        computeCriticalPath strayEdge 1 0 10 1 = .ok [⟨0, 5, 1, .run⟩] ∧
          ¬ PathTiles 0 [⟨0, 5, 1, .run⟩] 10 := by
  refine ⟨built_strayEdge, timeOrdered_of_keys built_strayEdge.owned (by decide),
    built_strayEdge.owned.forall_nodesOf (P := strayEdge.ChainedFrom) trivial (by decide), ?_, rfl,
    ⟨0, by decide, by decide⟩, ⟨2, by decide, by decide⟩, ?_, ?_, ?_⟩
  · intro e edge hedge htype
    rw [run_of_strayEdge hedge] at htype
    cases htype
  · rintro ⟨n, e, edge, -, -, hedge, hblocked, -⟩
    rw [run_of_strayEdge hedge] at hblocked
    cases hblocked
  · have hscript : callScript strayEdge 0 10 1 =
        [.ok (.insert ⟨0, 10, 1, .run⟩), .ok (.insert ⟨10, 5, 1, .run⟩)] := by decide
    rw [computeCriticalPath, computeCriticalPathRecursive_of_script hscript]
    rfl
  · rintro ⟨-, -, hend⟩
    cases hend

end

end TibeeCompare.Critical
