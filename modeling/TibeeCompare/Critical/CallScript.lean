import TibeeCompare.Critical.ComputeCriticalPath

/-!
The path search seen as a tree of calls.

What one call of `ComputeCriticalPathRecursive` does depends on the graph, the
window and the thread, never on the path that is being filled. Its effect is
therefore a script: the list of segments it inserts and of calls it makes, in
order. `computeCriticalPathRecursive_succ` says that the search runs the script,
so whatever is to be proved about the search becomes a statement about scripts
and an induction on the depth, done once in `reaches_induction`.
-/

namespace TibeeCompare.Critical

/-- A step of one call. The steps keep the nodes and the window they come from,
which are what the conditions on a search are about. -/
inductive Action
  /-- A segment of the thread itself. -/
  | insert (segment : CriticalPathSegment)
  /-- The segment of a thread that starts late and was not woken up, and the first
  node of this thread. -/
  | lateStart (first : Option ℕ) (segment : CriticalPathSegment) (endTs : ℕ)
  /-- The segment on the network thread, for a wait from `startTs` to `endTs`. -/
  | network (startNode endNode : ℕ) (segment : CriticalPathSegment)
      (startTs endTs : ℕ)
  /-- A recursive call, on the thread of the node `source`. -/
  | recurse (source : ℕ) (startTs endTs : ℕ) (tid : ℕ)
  deriving DecidableEq, Repr

/-- A fault ends the script. -/
abbrev Script := List (Except Fault Action)

def Action.perform (recurse : Recursion) : Action → CriticalPath → Except Fault CriticalPath
  | .insert segment, path => pure (insertCriticalPathSegment segment path)
  | .lateStart _ segment _, path => pure (insertCriticalPathSegment segment path)
  | .network _ _ segment _ _, path => pure (insertCriticalPathSegment segment path)
  | .recurse _ startTs endTs tid, path => recurse startTs endTs tid path

def Script.run (recurse : Recursion) (script : Script) (path : CriticalPath) :
    Except Fault CriticalPath :=
  script.foldlM (fun path step => step >>= fun action => action.perform recurse path) path

/-- Continue with what was read, or stop the script. -/
def reading {α : Type} (read : Except Fault α) (script : α → Script) : Script :=
  match read with
  | .ok a => script a
  | .error fault => [.error fault]

@[simp] theorem Script.run_nil (recurse : Recursion) (path : CriticalPath) :
    Script.run recurse [] path = .ok path := rfl

@[simp] theorem Script.run_ok_cons (recurse : Recursion) (action : Action) (script : Script)
    (path : CriticalPath) :
    Script.run recurse (.ok action :: script) path =
      action.perform recurse path >>= Script.run recurse script := rfl

theorem Script.run_ok_cons_eq_ok {recurse : Recursion} {action : Action} {script : Script}
    {path path' : CriticalPath} (h : Script.run recurse (.ok action :: script) path = .ok path') :
    ∃ middle, action.perform recurse path = .ok middle ∧ script.run recurse middle = .ok path' := by
  rw [Script.run_ok_cons] at h
  cases haction : action.perform recurse path with
  | error fault =>
      rw [haction] at h
      cases h
  | ok middle =>
      rw [haction] at h
      exact ⟨middle, rfl, h⟩

@[simp] theorem Script.run_error_cons (recurse : Recursion) (fault : Fault) (script : Script)
    (path : CriticalPath) :
    Script.run recurse (.error fault :: script) path = .error fault := rfl

theorem Script.run_append (recurse : Recursion) (first second : Script) (path : CriticalPath) :
    Script.run recurse (first ++ second) path =
      Script.run recurse first path >>= Script.run recurse second :=
  List.foldlM_append

theorem Script.run_reading {α : Type} (recurse : Recursion) (read : Except Fault α)
    (script : α → Script) (path : CriticalPath) :
    Script.run recurse (reading read script) path =
      read >>= fun a => Script.run recurse (script a) path := by
  cases read <;> rfl

@[simp] theorem reading_ok {α : Type} (a : α) (script : α → Script) :
    reading (.ok a) script = script a := rfl

/-- Every step of the script has the property. -/
def Script.All (P : Action → Prop) (script : Script) : Prop :=
  ∀ action, .ok action ∈ script → P action

instance (P : Action → Prop) [DecidablePred P] (script : Script) : Decidable (script.All P) :=
  decidable_of_iff (∀ step ∈ script, ∀ action ∈ step.toOption, P action) (by
    constructor
    · exact fun h action hmem => h _ hmem action rfl
    · rintro h (fault | action) hmem _ ⟨⟩
      exact h action hmem)

theorem Script.all_append {P : Action → Prop} {first second : Script} :
    Script.All P (first ++ second) ↔ first.All P ∧ second.All P := by
  constructor
  · intro h
    exact ⟨fun action hmem => h action (List.mem_append_left _ hmem),
      fun action hmem => h action (List.mem_append_right _ hmem)⟩
  · rintro ⟨hfirst, hsecond⟩ action hmem
    rcases List.mem_append.mp hmem with hmem | hmem
    · exact hfirst action hmem
    · exact hsecond action hmem

theorem Script.all_nil (P : Action → Prop) : Script.All P [] :=
  fun _ hmem => absurd hmem List.not_mem_nil

theorem Script.all_cons {P : Action → Prop} {action : Action} {script : Script}
    (h : P action) (hrest : script.All P) : Script.All P (.ok action :: script) := by
  intro other hmem
  rcases List.mem_cons.mp hmem with heq | hmem
  · exact Except.ok.inj heq ▸ h
  · exact hrest other hmem

/-- A script that goes on with what was read, if that is no fault. -/
theorem Script.all_reading {α : Type} {P : Action → Prop} {read : Except Fault α}
    {script : α → Script} (h : ∀ a, read = .ok a → (script a).All P) :
    (reading read script).All P := by
  cases hread : read with
  | ok a => exact h a hread
  | error fault =>
      intro action hmem
      cases List.mem_singleton.mp hmem

/-- Recursive calls that give the same results make the script give the same result. -/
theorem Script.run_congr {first second : Recursion} {script : Script}
    (h : ∀ source startTs endTs tid, .ok (.recurse source startTs endTs tid) ∈ script →
      ∀ path, first startTs endTs tid path = second startTs endTs tid path)
    (path : CriticalPath) : script.run first path = script.run second path := by
  induction script generalizing path with
  | nil => rfl
  | cons step script ih =>
      cases step with
      | error fault => rfl
      | ok action =>
          have haction : action.perform first path = action.perform second path := by
            cases action with
            | recurse source startTs endTs tid =>
                exact h source startTs endTs tid List.mem_cons_self path
            | insert | lateStart | network => rfl
          rw [Script.run_ok_cons, Script.run_ok_cons, haction]
          refine bind_congr fun middle => ?_
          exact ih (fun source startTs endTs tid hmem =>
            h source startTs endTs tid (List.mem_cons_of_mem _ hmem)) middle

/-! ### The scripts of the functions of the search -/

def sourceScript (source : ℕ) (startTs endTs : ℕ) (tid : ℕ) : Script :=
  [.ok (.insert ⟨startTs, startTs, tid, .epsilon⟩), .ok (.recurse source startTs endTs tid)]

/-- The script of `resolvedBlockedEdge`. -/
def blockedScript (g : CriticalGraph) (edge : CriticalEdge) (startTs endTs : ℕ) :
    Script :=
  reading (g.deref edge.toNode) fun toNode =>
    match toNode.edge .inVertical with
    | none => [.ok (.insert ⟨startTs, endTs, toNode.tid, edge.type⟩)]
    | some wakeUpEdgeId =>
        reading (g.getEdge wakeUpEdgeId) fun wakeUpEdge =>
        reading (g.deref wakeUpEdge.fromNode) fun networkEndNode =>
          let onSource := sourceScript wakeUpEdge.fromNode startTs endTs networkEndNode.tid
          if networkEndNode.tid = kNetworkThread then
            match networkEndNode.edge .inHorizontal with
            | some networkEdgeId =>
                reading (g.getEdge networkEdgeId) fun networkEdge =>
                reading (g.deref networkEdge.fromNode) fun networkStartNode =>
                  match networkStartNode.edge .inVertical with
                  | some networkWakeUpEdgeId =>
                      reading (g.getEdge networkWakeUpEdgeId) fun networkWakeUpEdge =>
                      reading (g.deref networkWakeUpEdge.fromNode) fun networkSource =>
                        [.ok (.recurse networkWakeUpEdge.fromNode startTs networkStartNode.ts
                            networkSource.tid),
                          .ok (.network networkEdge.fromNode wakeUpEdge.fromNode
                            ⟨networkStartNode.ts, networkEndNode.ts, networkStartNode.tid,
                              networkEdge.type⟩ startTs endTs)]
                  | none => onSource
            | none => onSource
          else onSource

/-- The steps of one round of `traverseNodes`. -/
def edgeScript (g : CriticalGraph) (edge : CriticalEdge) (edgeStartTs edgeEndTs : ℕ)
    (tid : ℕ) : Script :=
  if edge.type.isBlocked then blockedScript g edge edgeStartTs edgeEndTs
  else if edgeStartTs ≠ edgeEndTs then
    [.ok (.insert ⟨edgeStartTs, edgeEndTs, tid, edge.type⟩)]
  else []

/-- The script of `traverseNodes`. -/
def traverseScript (g : CriticalGraph) (startTs endTs : ℕ) (tid : ℕ) :
    ℕ → Option ℕ → Script
  | _, none => []
  | 0, some _ => [.error .outOfFuel]
  | rounds + 1, some n =>
      reading (g.deref n) fun node =>
        if node.ts ≤ endTs then
          match node.edge .outHorizontal with
          | none => []
          | some edgeId =>
              reading (g.getEdge edgeId) fun edge =>
              reading (g.deref edge.toNode) fun nextNode =>
                edgeScript g edge (max startTs node.ts) (min endTs nextNode.ts) tid ++
                  traverseScript g startTs endTs tid rounds (some edge.toNode)
        else []

/-- The script of one call. -/
def callScript (g : CriticalGraph) (startTs endTs : ℕ) (tid : ℕ) : Script :=
  if endTs ≤ startTs then []
  else
    reading (g.getNodeIntersecting startTs tid) fun
      | some node => traverseScript g startTs endTs tid g.rounds (some node)
      | none =>
          let first := g.getNodeStartingAfter startTs tid
          reading (findWakeUp g endTs g.rounds first) fun
            | some (n, wakeUpEdgeId) =>
                reading (g.deref n) fun node =>
                reading (g.getEdge wakeUpEdgeId) fun wakeUpEdge =>
                reading (g.deref wakeUpEdge.fromNode) fun source =>
                  .ok (.recurse wakeUpEdge.fromNode startTs node.ts source.tid) ::
                    traverseScript g startTs endTs tid g.rounds (some n)
            | none =>
                let segmentEnd := match first with
                  | some n => g.tsOf n
                  | none => endTs
                .ok (.lateStart first ⟨startTs, segmentEnd, tid, .waitBlocked⟩ endTs) ::
                  traverseScript g startTs endTs tid g.rounds first

/-! ### The cases of one call -/

section cases

variable {g : CriticalGraph} {startTs endTs tid : ℕ}

theorem traverseScript_none (startTs endTs tid rounds : ℕ) :
    traverseScript g startTs endTs tid rounds none = [] := by
  cases rounds <;> rfl

/-- The last loop stops behind the end of the window. -/
theorem traverseScript_past {n : ℕ} {node : CriticalNode} (hnode : g.deref n = .ok node)
    (hpast : endTs < node.ts) (rounds : ℕ) :
    traverseScript g startTs endTs tid (rounds + 1) (some n) = [] := by
  rw [traverseScript, hnode, reading_ok, if_neg (Nat.not_le.mpr hpast)]

/-- The last loop stops at the last node of the thread. -/
theorem traverseScript_last {n : ℕ} {node : CriticalNode} (hnode : g.deref n = .ok node)
    (hout : node.edge .outHorizontal = none) (rounds : ℕ) :
    traverseScript g startTs endTs tid (rounds + 1) (some n) = [] := by
  rw [traverseScript, hnode, reading_ok]
  split
  · rw [hout]
  · rfl

/-- One round of the last loop. -/
theorem traverseScript_step {n id : ℕ} {node next : CriticalNode} {edge : CriticalEdge}
    (hnode : g.deref n = .ok node) (hle : node.ts ≤ endTs)
    (hout : node.edge .outHorizontal = some id) (hedge : g.edges id = some edge)
    (hnext : g.deref edge.toNode = .ok next) (rounds : ℕ) :
    traverseScript g startTs endTs tid (rounds + 1) (some n) =
      edgeScript g edge (max startTs node.ts) (min endTs next.ts) tid ++
        traverseScript g startTs endTs tid rounds (some edge.toNode) := by
  rw [traverseScript, hnode, reading_ok, if_pos hle, hout]
  simp only [CriticalGraph.getEdge, hedge, reading_ok, hnext]

/-- The thread has a node at the start of the window. -/
theorem callScript_of_node (hlt : startTs < endTs) {n : ℕ}
    (hsome : g.getNodeIntersecting startTs tid = .ok (some n)) :
    callScript g startTs endTs tid = traverseScript g startTs endTs tid g.rounds (some n) := by
  rw [callScript, if_neg (Nat.not_le.mpr hlt), hsome, reading_ok]

/-- The thread starts late and is not woken up. -/
theorem callScript_of_missed (hlt : startTs < endTs)
    (hnone : g.getNodeIntersecting startTs tid = .ok none) {first : Option ℕ}
    (hfirst : g.getNodeStartingAfter startTs tid = first)
    (hfind : findWakeUp g endTs g.rounds first = .ok none) :
    callScript g startTs endTs tid =
      .ok (.lateStart first ⟨startTs, (first.map g.tsOf).getD endTs, tid, .waitBlocked⟩ endTs) ::
        traverseScript g startTs endTs tid g.rounds first := by
  rw [callScript, if_neg (Nat.not_le.mpr hlt), hnone, reading_ok, hfirst]
  dsimp only
  rw [hfind, reading_ok]
  cases first <;> rfl

/-- The thread starts late and is woken up. -/
theorem callScript_of_woken (hlt : startTs < endTs)
    (hnone : g.getNodeIntersecting startTs tid = .ok none) {first : Option ℕ}
    (hfirst : g.getNodeStartingAfter startTs tid = first) {h id : ℕ} {hit source : CriticalNode}
    {wakeUp : CriticalEdge} (hfind : findWakeUp g endTs g.rounds first = .ok (some (h, id)))
    (hhit : g.deref h = .ok hit) (hwakeUp : g.edges id = some wakeUp)
    (hsource : g.deref wakeUp.fromNode = .ok source) :
    callScript g startTs endTs tid =
      .ok (.recurse wakeUp.fromNode startTs hit.ts source.tid) ::
        traverseScript g startTs endTs tid g.rounds (some h) := by
  rw [callScript, if_neg (Nat.not_le.mpr hlt), hnone, reading_ok, hfirst]
  dsimp only
  rw [hfind, reading_ok]
  simp only [hhit, CriticalGraph.getEdge, hwakeUp, hsource, reading_ok]

end cases

/-! ### The search runs the scripts -/

theorem resolvedBlockedEdge_eq_run (g : CriticalGraph) (recurse : Recursion)
    (edge : CriticalEdge) (startTs endTs : ℕ) (path : CriticalPath) :
    resolvedBlockedEdge g recurse edge startTs endTs path =
      (blockedScript g edge startTs endTs).run recurse path := by
  have hsource (source : ℕ) (tid : ℕ) :
      (sourceScript source startTs endTs tid).run recurse path =
        resolveOnSourceThread recurse startTs endTs tid path := by
    simp [sourceScript, resolveOnSourceThread, Action.perform, pure, Except.pure, bind,
      Except.bind]
    cases recurse startTs endTs tid _ <;> rfl
  simp only [resolvedBlockedEdge, blockedScript, Script.run_reading]
  refine bind_congr fun toNode => ?_
  cases toNode.edge .inVertical with
  | none => rfl
  | some wakeUpEdgeId =>
      simp only [Script.run_reading]
      refine bind_congr fun wakeUpEdge => bind_congr fun networkEndNode => ?_
      split
      · cases networkEndNode.edge .inHorizontal with
        | none => exact (hsource _ _).symm
        | some networkEdgeId =>
            simp only [Script.run_reading]
            refine bind_congr fun networkEdge => bind_congr fun networkStartNode => ?_
            cases networkStartNode.edge .inVertical with
            | none => exact (hsource _ _).symm
            | some networkWakeUpEdgeId =>
                simp only [Script.run_reading]
                rfl
      · exact (hsource _ _).symm

theorem followEdge_eq_run (g : CriticalGraph) (recurse : Recursion) (edge : CriticalEdge)
    (edgeStartTs edgeEndTs : ℕ) (tid : ℕ) (path : CriticalPath) :
    followEdge g recurse edge edgeStartTs edgeEndTs tid path =
      (edgeScript g edge edgeStartTs edgeEndTs tid).run recurse path := by
  simp only [followEdge, edgeScript]
  split
  · exact resolvedBlockedEdge_eq_run ..
  · split <;> rfl

theorem traverseNodes_eq_run (g : CriticalGraph) (recurse : Recursion)
    (startTs endTs : ℕ) (tid : ℕ) (rounds : ℕ) (n : Option ℕ)
    (path : CriticalPath) :
    traverseNodes g recurse startTs endTs tid rounds n path =
      (traverseScript g startTs endTs tid rounds n).run recurse path := by
  induction rounds generalizing n path with
  | zero => cases n <;> rfl
  | succ rounds ih =>
      cases n with
      | none => rfl
      | some n =>
          simp only [traverseNodes, traverseScript, Script.run_reading]
          refine bind_congr fun node => ?_
          split
          · cases node.edge .outHorizontal with
            | none => rfl
            | some edgeId =>
                simp only [Script.run_reading, Script.run_append]
                refine bind_congr fun edge => bind_congr fun nextNode => ?_
                rw [followEdge_eq_run]
                exact bind_congr fun path => ih _ path
          · rfl

/-- One call of the search performs its script, the recursive calls at one
depth less. -/
theorem computeCriticalPathRecursive_succ (g : CriticalGraph) (fuel : ℕ)
    (startTs endTs : ℕ) (tid : ℕ) (path : CriticalPath) :
    computeCriticalPathRecursive g (fuel + 1) startTs endTs tid path =
      (callScript g startTs endTs tid).run (computeCriticalPathRecursive g fuel) path := by
  simp only [computeCriticalPathRecursive, computeCriticalPathBody, callScript]
  split
  · rfl
  · rw [Script.run_reading]
    refine bind_congr fun node => ?_
    cases node with
    | some node => exact traverseNodes_eq_run ..
    | none =>
        simp only
        rw [Script.run_reading]
        refine bind_congr fun hit => ?_
        cases hit with
        | none => exact traverseNodes_eq_run ..
        | some hit =>
            simp only [Script.run_reading, Script.run_ok_cons]
            refine bind_congr fun node => bind_congr fun wakeUpEdge =>
              bind_congr fun source => ?_
            exact bind_congr fun path => traverseNodes_eq_run ..

theorem computeCriticalPathRecursive_of_script {g : CriticalGraph} {startTs endTs tid : ℕ}
    {script : Script} (h : callScript g startTs endTs tid = script) (fuel : ℕ)
    (path : CriticalPath) :
    computeCriticalPathRecursive g (fuel + 1) startTs endTs tid path =
      script.run (computeCriticalPathRecursive g fuel) path := by
  rw [computeCriticalPathRecursive_succ, h]

end TibeeCompare.Critical
