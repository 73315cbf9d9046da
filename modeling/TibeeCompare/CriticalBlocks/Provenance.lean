import TibeeCompare.Critical.PathBounds
import TibeeCompare.CriticalBlocks.Window
import Mathlib.Data.List.Induction

/-!
Where the segments of a path come from.

Cleanups may leave edges with an endpoint that is gone, but an edge that the search goes along
joins two nodes that are there, on one thread. So the search makes nothing up: what it puts into
a path is a part of an edge of the graph, or stands for a wait that no node explains.
-/

namespace TibeeCompare.Critical

open CriticalGraph Runs

namespace CriticalGraph

/-- A graph that handlers and cleanups left. -/
structure Laid (g : CriticalGraph) : Prop where
  owned : g.Owned
  clocked : g.Clocked
  sound : SlotsSound noStale g
  forward : g.EdgesForward
  created : ∀ {e edge}, g.edges e = some edge → edge.toNode < g.nextNode
  sameThread : ∀ {n e : ℕ} {p : CriticalEdgePosition} {edge : CriticalEdge} {ts t ts' t' : ℕ},
    p.IsHorizontal → g.slot n p = some e → g.edges e = some edge →
      g.label edge.fromNode = some (ts, t) → g.label edge.toNode = some (ts', t') → t = t'

/-- A window that lies on a horizontal edge of a thread. -/
structure OnEdge (g : CriticalGraph) (id tid startTs endTs : ℕ) (edge : CriticalEdge) : Prop where
  stored : g.edges id = some edge
  held : g.slot edge.fromNode .outHorizontal = some id ∨ g.slot edge.toNode .inHorizontal = some id
  fromLabel : ∃ ts, g.label edge.fromNode = some (ts, tid) ∧ ts ≤ startTs
  toLabel : ∃ ts, g.label edge.toNode = some (ts, tid) ∧ endTs ≤ ts
  le : startTs ≤ endTs

end CriticalGraph

/-- What a segment that a search from `startTs` on inserts stands for. -/
inductive Piece (g : CriticalGraph) (startTs : ℕ) : CriticalPathSegment → Prop
  /-- A part of an edge. -/
  | edge {id s e tid : ℕ} {edge : CriticalEdge} : startTs ≤ s → g.OnEdge id tid s e edge →
      Piece g startTs ⟨s, e, tid, edge.type⟩
  /-- The thread that ended a wait. -/
  | source {w m s ts tid : ℕ} : startTs ≤ s → g.Wakes w m → g.label w = some (ts, tid) →
      Piece g startTs ⟨s, s, tid, .epsilon⟩
  /-- A thread that has no node at the start of a window. -/
  | lateStart {s e tid : ℕ} : startTs ≤ s → s ≤ e → g.getNodeIntersecting s tid = .ok none →
      Piece g startTs ⟨s, e, tid, .waitBlocked⟩
  /-- The whole time that a packet was on its way. -/
  | network {id s e : ℕ} {edge : CriticalEdge} : g.OnEdge id kNetworkThread s e edge →
      Piece g startTs ⟨s, e, kNetworkThread, edge.type⟩

theorem Piece.mono {g : CriticalGraph} {startTs startTs' : ℕ} (hle : startTs ≤ startTs')
    {piece : CriticalPathSegment} (h : Piece g startTs' piece) : Piece g startTs piece := by
  cases h with
  | edge hs hon => exact .edge (hle.trans hs) hon
  | source hs hwakes hlabel => exact .source (hle.trans hs) hwakes hlabel
  | lateStart hs hse hnone => exact .lateStart (hle.trans hs) hse hnone
  | network hon => exact .network hon

/-- A step inserts a piece, or goes on at a later start. -/
def Action.Inserts (g : CriticalGraph) (startTs : ℕ) : Action → Prop
  | .insert segment => Piece g startTs segment
  | .lateStart _ segment _ => Piece g startTs segment
  | .network _ _ segment _ _ => Piece g startTs segment
  | .recurse _ startTs' _ _ => startTs ≤ startTs'

theorem Action.Inserts.mono {g : CriticalGraph} {startTs startTs' : ℕ} (hle : startTs ≤ startTs')
    {action : Action} (h : action.Inserts g startTs') : action.Inserts g startTs := by
  cases action with
  | insert | lateStart | network => exact Piece.mono hle h
  | recurse source startTs'' endTs tid => exact hle.trans h

/-! ### The scripts of a call -/

section scripts

variable {g : CriticalGraph}

theorem heap_of_deref {n : ℕ} {node : CriticalNode} (h : g.deref n = .ok node) :
    g.heap n = some node := by
  unfold deref at h
  split at h
  · next node' hnode =>
      obtain rfl := Except.ok.inj h
      exact hnode
  · cases h

theorem edges_of_getEdge {id : ℕ} {edge : CriticalEdge} (h : g.getEdge id = .ok edge) :
    g.edges id = some edge := by
  unfold getEdge at h
  split at h
  · next edge' hedge =>
      obtain rfl := Except.ok.inj h
      exact hedge
  · cases h

/-- An edge that the search follows, with the nodes at its ends. -/
structure Followed (g : CriticalGraph) (id : ℕ) (edge : CriticalEdge)
    (node nextNode : CriticalNode) : Prop where
  stored : g.edges id = some edge
  held : g.slot edge.fromNode .outHorizontal = some id
  fromNode : g.heap edge.fromNode = some node
  toNode : g.heap edge.toNode = some nextNode
  sameThread : node.tid = nextNode.tid
  le : node.ts ≤ nextNode.ts

theorem CriticalGraph.Laid.followed (hg : g.Laid) {n id : ℕ} {edge : CriticalEdge}
    {node nextNode : CriticalNode} (hnode : g.heap n = some node)
    (hslot : node.edge .outHorizontal = some id)
    (hedge : g.edges id = some edge) (hnext : g.heap edge.toNode = some nextNode) :
    edge.fromNode = n ∧ Followed g id edge node nextNode := by
  rw [← slot_of_heap hnode] at hslot
  obtain rfl : edge.fromNode = n := hg.sound.endpoint_eq not_false hslot hedge
  have hfrom := label_of_heap hnode
  have hto := label_of_heap hnext
  exact ⟨rfl, hedge, hslot, hnode, hnext, hg.sameThread (.inl rfl) hslot hedge hfrom hto,
    hg.clocked.ordered (hg.forward hedge) hfrom hto⟩

theorem Followed.onEdge {id : ℕ} {edge : CriticalEdge} {node nextNode : CriticalNode}
    (h : Followed g id edge node nextNode) {startTs endTs : ℕ} (hfrom : node.ts ≤ startTs)
    (hle : startTs ≤ endTs) (hto : endTs ≤ nextNode.ts) :
    g.OnEdge id nextNode.tid startTs endTs edge where
  stored := h.stored
  held := .inl h.held
  fromLabel := ⟨node.ts, by rw [label_of_heap h.fromNode, h.sameThread], hfrom⟩
  toLabel := ⟨nextNode.ts, label_of_heap h.toNode, hto⟩
  le := hle

theorem blockedScript_inserts (hg : g.Laid) {id : ℕ} {edge : CriticalEdge}
    {node nextNode : CriticalNode} (h : Followed g id edge node nextNode) {startTs endTs : ℕ}
    (hfrom : node.ts ≤ startTs) (hle : startTs ≤ endTs) (hto : endTs ≤ nextNode.ts) :
    (blockedScript g edge startTs endTs).All (Action.Inserts g startTs) := by
  unfold blockedScript
  refine Script.all_reading fun toNode htoNode => ?_
  obtain rfl : toNode = nextNode := by
    rw [deref_of_heap h.toNode] at htoNode
    exact (Except.ok.inj htoNode).symm
  split
  · exact Script.all_cons (.edge le_rfl (h.onEdge hfrom hle hto)) (Script.all_nil _)
  · next wakeUpEdgeId hwakeUp =>
      refine Script.all_reading fun wakeUpEdge hwakeUpEdge =>
        Script.all_reading fun endNode hendNode => ?_
      have hwakeUpEdge := edges_of_getEdge hwakeUpEdge
      have hendNode := heap_of_deref hendNode
      have hwakes : g.Wakes wakeUpEdge.fromNode edge.toNode := by
        rw [← slot_of_heap h.toNode] at hwakeUp
        exact ⟨wakeUpEdgeId, wakeUpEdge, hwakeUp, hwakeUpEdge, rfl⟩
      have hsource : (sourceScript wakeUpEdge.fromNode startTs endTs endNode.tid).All
          (Action.Inserts g startTs) :=
        Script.all_cons (.source le_rfl hwakes (label_of_heap hendNode))
          (Script.all_cons (le_refl startTs) (Script.all_nil _))
      dsimp only
      split
      · next hnetwork =>
          split
          · next networkEdgeId hnetworkEdgeId =>
              refine Script.all_reading fun networkEdge hnetworkEdge =>
                Script.all_reading fun startNode hstartNode => ?_
              have hnetworkEdge := edges_of_getEdge hnetworkEdge
              have hstartNode := heap_of_deref hstartNode
              split
              · refine Script.all_reading fun _ _ => Script.all_reading fun _ _ => ?_
                refine Script.all_cons (le_refl startTs) (Script.all_cons ?_ (Script.all_nil _))
                -- The edge that the packet came along is found at its end.
                rw [← slot_of_heap hendNode] at hnetworkEdgeId
                have hend : networkEdge.toNode = wakeUpEdge.fromNode :=
                  hg.sound.endpoint_eq not_false hnetworkEdgeId hnetworkEdge
                have hlabel := label_of_heap hstartNode
                have hlabel' := label_of_heap hendNode
                rw [← hend] at hlabel' hnetworkEdgeId
                have hthread := hg.sameThread (.inr rfl) hnetworkEdgeId hnetworkEdge hlabel hlabel'
                have hordered := hg.clocked.ordered (hg.forward hnetworkEdge) hlabel hlabel'
                rw [hthread, hnetwork] at hlabel
                rw [hnetwork] at hlabel'
                rw [hthread, hnetwork]
                exact .network ⟨hnetworkEdge, .inr hnetworkEdgeId, ⟨_, hlabel, le_rfl⟩,
                  ⟨_, hlabel', le_rfl⟩, hordered⟩
              · exact hsource
          · exact hsource
      · exact hsource

/-- The last loop, from a node on whose successors lie after the start. -/
theorem traverseScript_inserts (hg : g.Laid) {startTs endTs tid : ℕ} (hle : startTs ≤ endTs)
    (rounds : ℕ) {n : ℕ} (hn : ∀ node, g.heap n = some node → node.tid = tid)
    (hafter : ∀ m, g.Follow n m → ∀ node, g.heap m = some node → startTs ≤ node.ts) :
    (traverseScript g startTs endTs tid rounds (some n)).All (Action.Inserts g startTs) := by
  induction rounds generalizing n with
  | zero =>
      intro action hmem
      cases List.mem_singleton.mp hmem
  | succ rounds ih =>
      refine Script.all_reading fun node hnode => ?_
      have hnode := heap_of_deref hnode
      split
      · next hend =>
          split
          · exact Script.all_nil _
          · next edgeId hslot =>
              refine Script.all_reading fun edge hedge =>
                Script.all_reading fun nextNode hnext => ?_
              have hedge := edges_of_getEdge hedge
              have hnext := heap_of_deref hnext
              obtain ⟨rfl, hfollowed⟩ := hg.followed hnode hslot hedge hnext
              have hfollow : g.Follow edge.fromNode edge.toNode :=
                ⟨edgeId, edge, hfollowed.held, hedge, rfl⟩
              have hstart : startTs ≤ nextNode.ts := hafter _ hfollow nextNode hnext
              have hwindow : max startTs node.ts ≤ min endTs nextNode.ts :=
                max_le (le_min hle hstart) (le_min hend hfollowed.le)
              refine Script.all_append.mpr ⟨?_, ih ?_ ?_⟩
              · have hmono : ∀ action : Action, action.Inserts g (max startTs node.ts) →
                    action.Inserts g startTs := fun _ => .mono (le_max_left _ _)
                unfold edgeScript
                split
                · have hblocked := blockedScript_inserts hg hfollowed (le_max_right startTs node.ts)
                    hwindow (min_le_right endTs nextNode.ts)
                  exact fun action hmem => hmono action (hblocked action hmem)
                · split
                  · have hon := hfollowed.onEdge (le_max_right startTs node.ts) hwindow
                      (min_le_right endTs nextNode.ts)
                    rw [← hfollowed.sameThread, hn node hnode] at hon
                    exact Script.all_cons (.edge (le_max_left _ _) hon) (Script.all_nil _)
                  · exact Script.all_nil _
              · intro other hother
                rw [hnext] at hother
                obtain rfl := Option.some.inj hother
                rw [← hfollowed.sameThread, hn node hnode]
              · -- Nodes further on are later than the next one.
                rintro m ⟨id, edge', hslot', hedge', rfl⟩ node' hnode'
                obtain ⟨-, hfollowed'⟩ := hg.followed hnext
                  (by rw [← slot_of_heap hnext, hslot']) hedge' hnode'
                exact hstart.trans hfollowed'.le
      · exact Script.all_nil _

/-- The node at the start of a window is one of the thread, and what follows it lies after. -/
theorem mem_of_getNodeIntersecting_ok {ts tid n : ℕ}
    (h : g.getNodeIntersecting ts tid = .ok (some n)) :
    n ∈ g.nodesOf tid ∧ ∀ m, g.Follow n m → ∀ node, g.heap m = some node → ts ≤ node.ts := by
  have hlast := getLast?_of_getNodeIntersecting h
  refine ⟨(List.takeWhile_sublist _).subset (List.mem_of_getLast? hlast), ?_⟩
  rintro m ⟨id, edge, hslot, hedge, rfl⟩ toNode hto
  simp only [getNodeIntersecting, hlast] at h
  obtain ⟨node, hnode, h⟩ := bind_eq_ok.mp h
  rw [slot_of_heap (heap_of_deref hnode)] at hslot
  rw [hslot] at h
  simp only [getEdge, hedge, deref_of_heap hto, bind, Except.bind] at h
  split at h
  · cases h
  · next hge => exact not_lt.mp hge

/-- The woken node that the first loop finds is on the thread, after the start of the window. -/
theorem findWakeUp_later (hg : g.Laid) {startTs endTs tid : ℕ} {rounds n : ℕ} {hit : ℕ × ℕ}
    (hn : ∀ node, g.heap n = some node → node.tid = tid ∧ startTs ≤ node.ts)
    (h : findWakeUp g endTs rounds (some n) = .ok (some hit)) :
    ∀ node, g.heap hit.1 = some node → node.tid = tid ∧ startTs ≤ node.ts := by
  induction rounds generalizing n with
  | zero => cases h
  | succ rounds ih =>
      rw [findWakeUp] at h
      obtain ⟨node, hnode, h⟩ := bind_eq_ok.mp h
      have hnode := heap_of_deref hnode
      split at h
      · split at h
        · cases h
          exact hn
        · split at h
          · next id hslot =>
              obtain ⟨edge, hedge, h⟩ := bind_eq_ok.mp h
              have hedge := edges_of_getEdge hedge
              apply ih ?_ h
              intro next hnext
              obtain ⟨-, hfollowed⟩ := hg.followed hnode hslot hedge hnext
              obtain ⟨htid, hts⟩ := hn node hnode
              exact ⟨hfollowed.sameThread ▸ htid, hts.trans hfollowed.le⟩
          · cases h
      · cases h

theorem callScript_inserts (hg : g.Laid) (startTs endTs tid : ℕ) :
    (callScript g startTs endTs tid).All (Action.Inserts g startTs) := by
  have hnode : ∀ {n}, n ∈ g.nodesOf tid → ∀ node, g.heap n = some node →
      node.ts = g.tsOf n ∧ node.tid = tid := by
    intro n hn node hheap
    obtain ⟨node', hheap', hts, htid⟩ := heap_of_label (hg.owned.label_of_mem hn)
    rw [hheap] at hheap'
    obtain rfl := Option.some.inj hheap'
    exact ⟨hts, htid⟩
  -- A walk from a node of the thread that is later than the start only gets to later ones.
  have hlater : ∀ {n}, (∀ node, g.heap n = some node → node.tid = tid ∧ startTs ≤ node.ts) →
      startTs < endTs → (traverseScript g startTs endTs tid g.rounds (some n)).All
        (Action.Inserts g startTs) := by
    intro n hn hlt
    apply traverseScript_inserts hg hlt.le _ fun node hheap => (hn node hheap).1
    rintro m ⟨id, edge, hslot, hedge, rfl⟩ next hnext
    obtain ⟨node, hheap, hid⟩ := Option.bind_eq_some_iff.mp hslot
    obtain ⟨-, hfollowed⟩ := hg.followed hheap hid hedge hnext
    exact (hn node hheap).2.trans hfollowed.le
  unfold callScript
  split
  · exact Script.all_nil _
  · next hlt =>
      have hlt := not_le.mp hlt
      refine Script.all_reading fun found hfound => ?_
      cases found with
      | some n =>
          obtain ⟨hmem, hafter⟩ := mem_of_getNodeIntersecting_ok hfound
          exact traverseScript_inserts hg hlt.le _ (fun node hheap => (hnode hmem node hheap).2)
            hafter
      | none =>
          have hfirst : ∀ {n}, g.getNodeStartingAfter startTs tid = some n →
              ∀ node, g.heap n = some node → node.tid = tid ∧ startTs ≤ node.ts := by
            intro n hn node hheap
            obtain ⟨hmem, hts⟩ := getNodeStartingAfter_mem hn
            obtain ⟨heq, htid⟩ := hnode hmem node hheap
            exact ⟨htid, heq ▸ hts.le⟩
          refine Script.all_reading fun hit hhit => ?_
          cases hit with
          | some hit =>
              refine Script.all_reading fun node _ => Script.all_reading fun _ _ =>
                Script.all_reading fun _ _ => ?_
              refine Script.all_cons (le_refl startTs) (hlater ?_ hlt)
              cases hstarting : g.getNodeStartingAfter startTs tid with
              | none =>
                  rw [hstarting, findWakeUp] at hhit
                  cases hhit
              | some n =>
                  rw [hstarting] at hhit
                  exact findWakeUp_later hg (hfirst hstarting) hhit
          | none =>
              dsimp only
              cases hstarting : g.getNodeStartingAfter startTs tid with
              | none =>
                  rw [traverseScript_none]
                  exact Script.all_cons (.lateStart le_rfl hlt.le hfound) (Script.all_nil _)
              | some n =>
                  have hts := (getNodeStartingAfter_mem hstarting).2
                  exact Script.all_cons (.lateStart le_rfl hts.le hfound)
                    (hlater (hfirst hstarting) hlt)

end scripts

/-! ### Paths -/

/-- A path that some segments were inserted into. -/
def insertAll (pieces : List CriticalPathSegment) (path : CriticalPath) : CriticalPath :=
  pieces.foldl (fun path piece => insertCriticalPathSegment piece path) path

theorem insertAll_append (pieces pieces' : List CriticalPathSegment) (path : CriticalPath) :
    insertAll (pieces ++ pieces') path = insertAll pieces' (insertAll pieces path) :=
  List.foldl_append

/-- A call only inserts pieces. -/
def InsertsPieces (g : CriticalGraph) (call : Call) (path path' : CriticalPath) : Prop :=
  ∃ pieces, path' = insertAll pieces path ∧ ∀ piece ∈ pieces, Piece g call.startTs piece

theorem Script.run_insertsPieces {g : CriticalGraph} {recurse : Recursion} {script : Script}
    (hrec : RecursionKeeps recurse script (InsertsPieces g)) {startTs : ℕ}
    (hscript : script.All (Action.Inserts g startTs)) {path path' : CriticalPath}
    (hrun : script.run recurse path = .ok path') :
    ∃ pieces, path' = insertAll pieces path ∧ ∀ piece ∈ pieces, Piece g startTs piece := by
  induction script generalizing path with
  | nil =>
      cases hrun
      exact ⟨[], rfl, by simp⟩
  | cons step script ih =>
      cases step with
      | error fault => cases hrun
      | ok action =>
          obtain ⟨middle, haction, hrest⟩ := Script.run_ok_cons_eq_ok hrun
          have hinserts := hscript action List.mem_cons_self
          have htail : Script.All (Action.Inserts g startTs) script :=
            fun other hmem => hscript other (List.mem_cons_of_mem _ hmem)
          obtain ⟨pieces, rfl, hpieces⟩ := ih hrec.tail htail hrest
          have hfirst : ∃ pieces, middle = insertAll pieces path ∧
              ∀ piece ∈ pieces, Piece g startTs piece := by
            cases action with
            | insert segment =>
                cases haction
                exact ⟨[segment], rfl, List.forall_mem_singleton.mpr hinserts⟩
            | lateStart first segment endTs =>
                cases haction
                exact ⟨[segment], rfl, List.forall_mem_singleton.mpr hinserts⟩
            | network startNode endNode segment s e =>
                cases haction
                exact ⟨[segment], rfl, List.forall_mem_singleton.mpr hinserts⟩
            | recurse source startTs' endTs tid =>
                obtain ⟨pieces, rfl, hpieces⟩ :=
                  hrec source startTs' endTs tid List.mem_cons_self path middle haction
                exact ⟨pieces, rfl, fun piece hmem => (hpieces piece hmem).mono hinserts⟩
          obtain ⟨pieces', rfl, hpieces'⟩ := hfirst
          refine ⟨pieces' ++ pieces, (insertAll_append ..).symm, ?_⟩
          intro piece hmem
          rcases List.mem_append.mp hmem with hmem | hmem
          · exact hpieces' piece hmem
          · exact hpieces piece hmem

/-- A search puts together a path of pieces. -/
theorem CriticalGraph.Laid.insertsPieces {g : CriticalGraph} (hg : g.Laid)
    {fuel startTs endTs tid : ℕ} {path : CriticalPath}
    (hrun : computeCriticalPath g fuel startTs endTs tid = .ok path) :
    ∃ pieces, path = insertAll pieces [] ∧ ∀ piece ∈ pieces, Piece g startTs piece := by
  have hself : Reaches g ⟨startTs, endTs, tid⟩ ⟨startTs, endTs, tid⟩ := .self
  exact reaches_induction (InsertsPieces g) (by
    intro call _ recurse hrec path path' hscript
    exact Script.run_insertsPieces hrec
      (callScript_inserts hg call.startTs call.endTs call.tid) hscript) fuel hself hrun

/-- A segment of a path starts where a piece starts and ends where one ends, both of its type and
thread. -/
theorem mem_insertAll {pieces : List CriticalPathSegment} {segment : CriticalPathSegment}
    (h : segment ∈ insertAll pieces []) :
    (∃ first ∈ pieces, first.type = segment.type ∧ first.tid = segment.tid ∧
      first.startTs = segment.startTs) ∧
    ∃ last ∈ pieces, last.type = segment.type ∧ last.tid = segment.tid ∧
      last.endTs = segment.endTs := by
  induction pieces using List.reverseRecOn generalizing segment with
  | nil => cases h
  | append_singleton pieces piece ih =>
      rw [insertAll_append] at h
      have hold : ∀ {other}, other ∈ insertAll pieces [] → _ := fun hother => ih hother
      have hlift : ∀ {P : CriticalPathSegment → Prop}, (∃ old ∈ pieces, P old) →
          ∃ old ∈ pieces ++ [piece], P old := by
        rintro P ⟨old, hmem, hP⟩
        exact ⟨old, List.mem_append_left _ hmem, hP⟩
      have hnew : piece ∈ pieces ++ [piece] := List.mem_append_right _ List.mem_cons_self
      change segment ∈ insertCriticalPathSegment piece (insertAll pieces []) at h
      unfold insertCriticalPathSegment at h
      split at h
      · next back hback =>
          have hbackMem := List.mem_of_getLast? hback
          split at h
          · next hmerge =>
              rcases List.mem_append.mp h with h | h
              · obtain ⟨hfirst, hlast⟩ := ih (List.mem_of_mem_dropLast h)
                exact ⟨hlift hfirst, hlift hlast⟩
              · obtain rfl := List.mem_singleton.mp h
                exact ⟨hlift (ih hbackMem).1, piece, hnew, hmerge.1.symm, hmerge.2.symm, rfl⟩
          · rcases List.mem_append.mp h with h | h
            · obtain ⟨hfirst, hlast⟩ := ih h
              exact ⟨hlift hfirst, hlift hlast⟩
            · obtain rfl := List.mem_singleton.mp h
              exact ⟨⟨segment, hnew, rfl, rfl, rfl⟩, segment, hnew, rfl, rfl, rfl⟩
      · rcases List.mem_append.mp h with h | h
        · obtain ⟨hfirst, hlast⟩ := ih h
          exact ⟨hlift hfirst, hlift hlast⟩
        · obtain rfl := List.mem_singleton.mp h
          exact ⟨⟨segment, hnew, rfl, rfl, rfl⟩, segment, hnew, rfl, rfl, rfl⟩

theorem Piece.le_startTs {g : CriticalGraph} {startTs : ℕ} {piece : CriticalPathSegment}
    (h : Piece g startTs piece) : piece.tid = kNetworkThread ∨ startTs ≤ piece.startTs := by
  cases h with
  | edge hs _ => exact .inr hs
  | source hs _ _ => exact .inr hs
  | lateStart hs _ _ => exact .inr hs
  | network _ => exact .inl rfl

theorem Piece.le_endTs {g : CriticalGraph} {startTs : ℕ} {piece : CriticalPathSegment}
    (h : Piece g startTs piece) : piece.tid = kNetworkThread ∨ startTs ≤ piece.endTs := by
  cases h with
  | edge hs hon => exact .inr (hs.trans hon.le)
  | source hs _ _ => exact .inr hs
  | lateStart hs hse _ => exact .inr (hs.trans hse)
  | network _ => exact .inl rfl

end TibeeCompare.Critical

/-! ### What handlers and cleanups leave -/

namespace TibeeCompare.Critical.CriticalGraph

open Function

variable {g g' : CriticalGraph}

theorem laid_empty : empty.Laid where
  owned := owned_empty
  clocked := clocked_empty
  sound := slotsExact_empty.toSlotsSound
  forward h := by cases h
  created h := by cases h
  sameThread _ h := by cases h

theorem Laid.setTimestamp (h : g.Laid) {ts : ℕ} (hle : g.ts ≤ ts) : (g.setTimestamp ts).Laid where
  owned := h.owned.setTimestamp ts
  clocked := h.clocked.setTimestamp hle
  sound := ⟨h.sound.stored, h.sound.sameAxis, h.sound.fresh⟩
  forward := h.forward
  created := h.created
  sameThread := h.sameThread

/-- The labels of the ends of an edge, from before a node was created. -/
theorem Laid.label_of_update (h : g.Laid) {e : ℕ} {edge : CriticalEdge}
    (hedge : g.edges e = some edge) {fresh : Option (ℕ × ℕ)}
    (hlabel : g'.label = update g.label g.nextNode fresh) :
    g'.label edge.fromNode = g.label edge.fromNode ∧
      g'.label edge.toNode = g.label edge.toNode := by
  have hto := h.created hedge
  have hfrom := (h.forward hedge).trans hto
  rw [hlabel, update_of_ne hfrom.ne, update_of_ne hto.ne]
  exact ⟨rfl, rfl⟩

theorem Laid.createNode (h : g.Laid) (tid : ℕ) : (g.createNode tid).1.Laid where
  owned := h.owned.createNode tid
  clocked := h.clocked.of_update h.owned rfl (label_createNode ..)
  sound := h.sound.createNode tid
  forward := h.forward
  created hedge := (h.created hedge).trans (Nat.lt_succ_self _)
  sameThread := by
    intro n e p edge ts t ts' t' hp hslot hedge hfrom hto
    obtain ⟨hfrom', hto'⟩ := h.label_of_update hedge (label_createNode g tid)
    rw [hfrom'] at hfrom
    rw [hto'] at hto
    exact h.sameThread hp (slot_of_slot_createNode hslot) hedge hfrom hto

theorem Laid.withEdge (h : g.Laid) {edge : CriticalEdge} {out : CriticalEdgePosition}
    (hout : out.IsOut) {ts t ts' t' : ℕ} (hlt : edge.fromNode < edge.toNode)
    (hfrom : g.label edge.fromNode = some (ts, t)) (hto : g.label edge.toNode = some (ts', t'))
    (hthread : out = .outHorizontal → t = t') : (g.withEdge edge out).Laid where
  owned := h.owned.withEdge ..
  clocked := h.clocked.withEdge ..
  sound := h.sound.withEdge edge hout hfrom hto
  forward := by
    intro e stored hstored
    rw [edges_withEdge] at hstored
    by_cases he : e = g.nextEdgeId
    · subst he
      rw [update_self] at hstored
      obtain rfl := Option.some.inj hstored
      exact hlt
    · rw [update_of_ne he] at hstored
      exact h.forward hstored
  created := by
    intro e stored hstored
    rw [edges_withEdge] at hstored
    by_cases he : e = g.nextEdgeId
    · subst he
      rw [update_self] at hstored
      obtain rfl := Option.some.inj hstored
      exact h.owned.lt_next hto
    · rw [update_of_ne he] at hstored
      exact h.created hstored
  sameThread := by
    intro n e p stored ts₁ t₁ ts₂ t₂ hp hslot hedge hlabel hlabel'
    rw [label_withEdge] at hlabel hlabel'
    rw [slot_withEdge edge hfrom hto] at hslot
    rw [edges_withEdge] at hedge
    split at hslot
    · next hnew =>
        obtain rfl := Option.some.inj hslot
        rw [update_self] at hedge
        obtain rfl := Option.some.inj hedge
        rw [hfrom] at hlabel
        rw [hto] at hlabel'
        cases hlabel
        cases hlabel'
        apply hthread
        -- a vertical edge gets into no horizontal slot
        rcases hout with rfl | rfl
        · rcases hnew with ⟨-, rfl⟩ | ⟨-, rfl⟩ <;> rcases hp with hp | hp <;> cases hp
        · rfl
    · rw [update_of_ne (h.sound.lt_nextEdgeId hslot).ne] at hedge
      exact h.sameThread hp hslot hedge hlabel hlabel'

theorem Laid.extend (h : g.Laid) {prev ts tid : ℕ} (hprev : g.label prev = some (ts, tid))
    (type : CriticalEdgeType) : (g.extend type prev tid).Laid := by
  have hlt := h.owned.lt_next hprev
  have hfrom : (g.createNode tid).1.label prev = some (ts, tid) := by
    rw [label_createNode, update_of_ne hlt.ne, hprev]
  have hto : (g.createNode tid).1.label g.nextNode = some (g.ts, tid) := by
    rw [label_createNode, update_self]
  exact (h.createNode tid).withEdge (Or.inr rfl) hlt hfrom hto fun _ => rfl

theorem Grows.laid {Hop : CriticalGraph → ℕ → Prop} (h : Grows Hop g g') (hg : g.Laid) :
    g'.Laid := by
  induction h with
  | refl => exact hg
  | node tid _ ih => exact ih.createNode tid
  | cut type _ hlast ih => exact ih.extend (label_of_getLastNodeForThread ih.owned hlast) type
  | hop _ hprev _ ih => exact ih.extend hprev .run
  | wakeUp _ hlt hn hm _ _ ih => exact ih.withEdge (.inl rfl) hlt hn hm fun h => by cases h

theorem Laid.cleanup (h : g.Laid) {ts : ℕ} {order : List ℕ} (hclean : g.cleanup ts order = .ok g') :
    g'.Laid where
  owned := h.owned.cleanup hclean
  clocked := h.clocked.of_below (below_cleanup h.owned hclean)
  sound := h.sound.cleanup h.owned hclean
  forward hedge := h.forward ((below_cleanup h.owned hclean).edges hedge)
  created hedge := (below_cleanup h.owned hclean).nextNode ▸
    h.created ((below_cleanup h.owned hclean).edges hedge)
  sameThread hp hslot hedge hfrom hto :=
    have hbelow := below_cleanup h.owned hclean
    h.sameThread hp (hbelow.slot hslot) (hbelow.edges hedge) (hbelow.label hfrom)
      (hbelow.label hto)

end TibeeCompare.Critical.CriticalGraph

namespace TibeeCompare.CriticalBlocks

open Critical Critical.CriticalGraph CriticalBlock

theorem Reachable.laid {kInvalidThread : ℕ} {Allowed : CriticalBlock → Step → Prop}
    {b : CriticalBlock} (h : Reachable kInvalidThread Allowed b) : b.graph.Laid := by
  induction h with
  | initial => exact laid_empty
  | step hb horder _ hstep ih =>
      obtain ⟨ho, hp, -, -⟩ := hb.known
      rcases step_cases (fun _ _ => True) ho hp (fun _ _ _ _ _ => trivial) hstep with
        ⟨ts, event, rfl, heffect⟩ | ⟨ts, order, g, rfl, hclean, rfl⟩
      · exact heffect.grows.laid (ih.setTimestamp horder)
      · exact ih.cleanup hclean

/-- A block whose graph was laid so, with its pointers into it. -/
structure CriticalBlock.WellLaid (b : CriticalBlock) : Prop where
  laid : b.graph.Laid
  pointers : b.PointersKnown

namespace CriticalBlock

variable {b b' : CriticalBlock}

theorem wellLaid_initial : initial.WellLaid := ⟨laid_empty, pointersKnown_initial⟩

theorem WellLaid.setTimestamp (h : b.WellLaid) {ts : ℕ} (hle : b.graph.ts ≤ ts) :
    (b.setTimestamp ts).WellLaid := ⟨h.laid.setTimestamp hle, h.pointers⟩

theorem WellLaid.onEvent (h : b.WellLaid) {kInvalidThread : ℕ} {event : Event}
    (hevent : b.onEvent kInvalidThread event = .ok b') :
    b'.WellLaid ∧ b'.graph.ts = b.graph.ts := by
  have heffect : Effect (fun _ _ => True) b b' :=
    onEvent_ok h.laid.owned h.pointers (fun _ _ => trivial) hevent
  have hlaid := heffect.grows.laid h.laid
  exact ⟨⟨hlaid, h.pointers.effect hlaid.owned heffect⟩, heffect.grows.ts⟩

theorem WellLaid.cleanup (h : b.WellLaid) {ts : ℕ} {order : List ℕ} {g : CriticalGraph}
    (hclean : b.graph.cleanup ts order = .ok g) :
    CriticalBlock.WellLaid { b with graph := g } ∧ g.ts = b.graph.ts := by
  have hbelow := below_cleanup h.laid.owned hclean
  refine ⟨⟨h.laid.cleanup hclean, fun n hn => ?_⟩, hbelow.ts⟩
  obtain ⟨hlt, hnetwork⟩ := h.pointers n hn
  exact ⟨hbelow.nextNode ▸ hlt, fun ts tid hlabel => hnetwork ts tid (hbelow.label hlabel)⟩

end CriticalBlock

/-- In every run of the handlers, with any cleanups, a search puts a path together from pieces of
the graph: parts of edges of its threads, the threads that ended waits, and waits of threads that
have no node at their start. Only on the network thread does a piece start before the search. -/
theorem computeCriticalPath_pieces {kInvalidThread : ℕ} {Allowed : CriticalBlock → Step → Prop}
    {b : CriticalBlock} (hb : Reachable kInvalidThread Allowed b) {fuel startTs endTs tid : ℕ}
    {path : CriticalPath} (hrun : computeCriticalPath b.graph fuel startTs endTs tid = .ok path) :
    ∃ pieces, path = insertAll pieces [] ∧ (∀ piece ∈ pieces, Piece b.graph startTs piece) ∧
      ∀ segment ∈ path, segment.tid = kNetworkThread ∨ startTs ≤ segment.startTs := by
  obtain ⟨pieces, rfl, hpieces⟩ := hb.laid.insertsPieces hrun
  refine ⟨pieces, rfl, hpieces, ?_⟩
  intro segment hsegment
  obtain ⟨⟨first, hfirst, -, htid, hstart⟩, -⟩ := mem_insertAll hsegment
  rw [← htid, ← hstart]
  exact (hpieces first hfirst).le_startTs

/-- The packet is sent within the window, so that the path has the sender before it. -/
theorem computeCriticalPath_packetBetweenThreads :
    computeCriticalPath (CriticalBlock.after 4294967295 packetBetweenThreads).graph 2 3 10 1 =
      .ok [⟨3, 5, 2, .run⟩, ⟨5, 10, kNetworkThread, .run⟩] := by
  have hquery : callScript (CriticalBlock.after 4294967295 packetBetweenThreads).graph 3 10 1 =
      [.ok (.recurse 2 3 5 2),
        .ok (.network 3 4 ⟨5, 10, kNetworkThread, .run⟩ 3 10)] := by decide
  have hsender : callScript (CriticalBlock.after 4294967295 packetBetweenThreads).graph 3 5 2 =
      [.ok (.insert ⟨3, 5, 2, .run⟩)] := by decide
  rw [computeCriticalPath, computeCriticalPathRecursive_of_script hquery]
  simp only [Script.run_ok_cons, Action.perform, computeCriticalPathRecursive_of_script hsender]
  rfl

theorem pieces_packetBetweenThreads :
    ∃ pieces, [⟨3, 5, 2, .run⟩, ⟨5, 10, kNetworkThread, .run⟩] = insertAll pieces [] ∧
      ∀ piece ∈ pieces,
        Piece (CriticalBlock.after 4294967295 packetBetweenThreads).graph 3 piece := by
  obtain ⟨pieces, hpath, hpieces, -⟩ := computeCriticalPath_pieces
    follows_packetBetweenThreads.reachable_after computeCriticalPath_packetBetweenThreads
  exact ⟨pieces, hpath, hpieces⟩

end TibeeCompare.CriticalBlocks
