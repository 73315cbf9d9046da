import TibeeCompare.Stacks.Cleanups

/-!
Runs of operations on the stacks.

`Change` says what an operation can do to the entries of one thread: set a stack at the
current time, give a stack to a system call, move the last end, drop entries at the front,
or nothing. As long as the clock does not go back, the entries stay in order.
-/

namespace TibeeCompare.Stacks

open Db

/-- The operation may record an entry that is marked as a system call. -/
def Op.setsSyscall : Op → Bool
  | setStack _ _ isSyscall => isSyscall
  | setNoStack _ | startSystemCall _ _ | endSytemCall _ => true
  | setTimestamp _ | setStackNames _ _ | setLastSystemCallStack _ _
  | setLastSystemCallStackNames _ _ | terminate | cleanup _ => false

/-- What an operation can do to the entries of a thread when the clock is at `ts`. -/
inductive Change (op : Op) (ts : ℕ) (entries : List StackWrapper) : List StackWrapper → Prop
  | kept : Change op ts entries entries
  | set (stackId : StackId) (isSyscall : Bool) (hflag : isSyscall = true → op.setsSyscall = true) :
      Change op ts entries (setEntry ts stackId isSyscall entries)
  | resolved (found : ℕ × StackWrapper) (stackId : StackId)
      (hfound : syscallToResolve entries = some found) :
      Change op ts entries
        (entries.set found.1 { found.2 with stackId := stackId, isResolved := true })
  | closed : Change op ts entries (closeBack ts entries)
  | dropped (n : ℕ) : Change op ts entries (entries.drop n)

/-! ### One operation -/

section Operations

variable {b b' : StacksBuilder} {db db' : Database} {op : Op}

theorem change_updateThread {thread : ℕ} {entries : List StackWrapper}
    (h : Change op b.ts (b.stacksOf thread) entries) (other : ℕ) :
    Change op b.ts (b.stacksOf other) ((b.updateThread thread entries).stacksOf other) := by
  by_cases hother : other = thread
  · subst hother
    rw [StacksBuilder.stacksOf_updateThread]
    exact h
  · rw [b.updateThread_of_ne hother]
    exact .kept

theorem endSytemCall_change {thread : ℕ} (hop : op.setsSyscall = true)
    (h : (b.endSytemCall thread).runOn db = (.ok b', db')) :
    b'.ts = b.ts ∧ ∀ other, Change op b.ts (b.stacksOf other) (b'.stacksOf other) := by
  rcases StacksBuilder.endSytemCall_ok h with ⟨rfl, -⟩ | ⟨-, stackId, isSyscall, -, -, rfl⟩
  · exact ⟨rfl, fun other => .kept⟩
  · exact ⟨rfl, change_updateThread (.set stackId isSyscall fun _ => hop)⟩

theorem setLastSystemCallStack_change {thread : ℕ} {stackId : StackId}
    (h : (b.setLastSystemCallStack thread stackId).runOn db = (.ok b', db')) :
    b'.ts = b.ts ∧ ∀ other, Change op b.ts (b.stacksOf other) (b'.stacksOf other) := by
  rw [setLastSystemCallStack_eq] at h
  cases hfound : syscallToResolve (b.stacksOf thread) with
  | none =>
      rw [hfound] at h
      cases h
      exact ⟨rfl, fun other => .kept⟩
  | some found =>
      rw [hfound] at h
      obtain ⟨syscallOnlyStack, mid, -, h⟩ := DbM.runOn_bind_eq_ok.mp h
      obtain ⟨syscallFullStack, -, rfl⟩ := DbM.runOn_map_eq_ok.mp h
      exact ⟨rfl, change_updateThread (.resolved found syscallFullStack hfound)⟩

/-- The clock moves to the time that the operation sets, and each thread is changed in one of
the ways that `Change` lists. -/
theorem Op.run_change (h : (op.run b).runOn db = (.ok b', db')) :
    b'.ts = op.timestamp?.getD b.ts ∧
      ∀ thread, Change op b.ts (b.stacksOf thread) (b'.stacksOf thread) := by
  cases op with
  | setTimestamp ts =>
      cases h
      exact ⟨rfl, fun thread => .kept⟩
  | setStack thread stackId isSyscall =>
      cases h
      exact ⟨rfl, change_updateThread (.set stackId isSyscall id)⟩
  | setStackNames thread stack =>
      obtain ⟨stackId, -, rfl⟩ := DbM.runOn_map_eq_ok.mp h
      exact ⟨rfl, change_updateThread (.set stackId false fun hflag => (by cases hflag))⟩
  | setNoStack thread =>
      obtain ⟨stackId, -, rfl⟩ := DbM.runOn_map_eq_ok.mp h
      exact ⟨rfl, change_updateThread (.set stackId true fun _ => rfl)⟩
  | startSystemCall thread syscall =>
      obtain ⟨stackId, -, rfl⟩ := DbM.runOn_map_eq_ok.mp h
      exact ⟨rfl, change_updateThread (.set stackId true fun _ => rfl)⟩
  | endSytemCall thread => exact endSytemCall_change rfl h
  | setLastSystemCallStack thread stackId => exact setLastSystemCallStack_change h
  | setLastSystemCallStackNames thread stack =>
      obtain ⟨stackId, mid, -, h⟩ := DbM.runOn_bind_eq_ok.mp h
      exact setLastSystemCallStack_change h
  | terminate =>
      cases h
      exact ⟨rfl, fun thread => .closed⟩
  | cleanup ts =>
      cases h
      exact ⟨rfl, fun thread => .dropped _⟩

end Operations

/-- Entries in order, none of which starts after `ts`, stay so. -/
theorem Change.inOrder {op : Op} {ts : ℕ} {entries entries' : List StackWrapper}
    (h : Change op ts entries entries') (horder : InOrder entries) (hts : StartsBy ts entries) :
    InOrder entries' ∧ StartsBy ts entries' := by
  cases h with
  | kept => exact ⟨horder, hts⟩
  | set stackId isSyscall =>
      exact horder.setEntry hts stackId isSyscall
  | resolved found stackId hfound =>
      have htimes : (entries.set found.1
            { found.2 with stackId := stackId, isResolved := true }).map StackWrapper.times =
          entries.map StackWrapper.times :=
        map_set_eq (f := StackWrapper.times) (getElem?_of_syscallToResolve hfound) rfl
      exact ⟨horder.of_times htimes, hts.of_times htimes⟩
  | closed => exact ⟨(inOrder_closeBack horder).mpr hts, startsBy_closeBack.mpr hts⟩
  | dropped n => exact ⟨horder.drop n, hts.drop n⟩

/-! ### Whole runs -/

/-- The time that the last of the operations set. -/
def clock (ops : List Op) : ℕ := ((ops.filterMap Op.timestamp?).getLast?).getD 0

theorem clock_concat (ops : List Op) (op : Op) :
    clock (ops ++ [op]) = op.timestamp?.getD (clock ops) := by
  rw [clock, clock, List.filterMap_append]
  cases hop : op.timestamp? with
  | none => rw [List.filterMap_cons_none hop, List.filterMap_nil, List.append_nil]; rfl
  | some ts => rw [List.filterMap_cons_some hop, List.filterMap_nil, List.getLast?_concat]; rfl

theorem NonDecreasing.of_concat {ops : List Op} {op : Op} (h : NonDecreasing (ops ++ [op])) :
    NonDecreasing ops := by
  rw [NonDecreasing, List.filterMap_append, List.pairwise_append] at h
  exact h.1

/-- The clock does not go back at the last operation. -/
theorem NonDecreasing.clock_le {ops : List Op} {op : Op} (h : NonDecreasing (ops ++ [op])) :
    clock ops ≤ clock (ops ++ [op]) := by
  rw [clock_concat]
  cases hop : op.timestamp? with
  | none => exact le_rfl
  | some ts =>
      rw [NonDecreasing, List.filterMap_append, List.filterMap_cons_some hop,
        List.pairwise_append] at h
      rw [clock]
      cases hlast : (ops.filterMap Op.timestamp?).getLast? with
      | none => exact Nat.zero_le ts
      | some last => exact h.2.2 last (List.mem_of_getLast? hlast) ts List.mem_cons_self

theorem after_concat_ok {db db' : Database} {ops : List Op} {op : Op} {b' : StacksBuilder} :
    after db (ops ++ [op]) = (.ok b', db') ↔
      ∃ b mid, after db ops = (.ok b, mid) ∧ (op.run b).runOn mid = (.ok b', db') := by
  rw [after_concat, DbM.runOn_bind_eq_ok]
  rfl

/-- The stacks of a builder whose clock never went back. -/
theorem after_inOrder {db db' : Database} {ops : List Op} {b : StacksBuilder}
    (hclock : NonDecreasing ops) (h : after db ops = (.ok b, db')) :
    b.ts = clock ops ∧
      ∀ thread, InOrder (b.stacksOf thread) ∧ StartsBy b.ts (b.stacksOf thread) := by
  induction ops using List.reverseRecOn generalizing b db' with
  | nil =>
      cases h
      exact ⟨rfl, fun thread => ⟨⟨List.Pairwise.nil, fun e he => (by cases he), List.IsChain.nil⟩,
        fun back hback => (by cases hback)⟩⟩
  | append_singleton ops op ih =>
      obtain ⟨before, mid, hbefore, hrun⟩ := after_concat_ok.mp h
      obtain ⟨hts, horder⟩ := ih hclock.of_concat hbefore
      obtain ⟨hts', hchange⟩ := Op.run_change hrun
      have hnow : b.ts = clock (ops ++ [op]) := by rw [hts', hts, clock_concat]
      refine ⟨hnow, fun thread => ?_⟩
      obtain ⟨horder', hstarts⟩ := (hchange thread).inOrder (horder thread).1 (horder thread).2
      refine ⟨horder', hstarts.mono ?_⟩
      rw [hts, hnow]
      exact hclock.clock_le

/-! ### Runs that are watched

Beside the builder, a watched run keeps a note on each thread, which it brings up to date after
each operation from the entries of the thread before and after it. -/

section Watched

variable {σ : Type} (update : Op → ℕ → List StackWrapper → List StackWrapper → σ → σ) (first : σ)

/-- One operation, and the notes on what it did. -/
def watchedStep (s : StacksBuilder × (ℕ → σ)) (op : Op) : DbM (StacksBuilder × (ℕ → σ)) := do
  let b ← op.run s.1
  pure (b, fun thread => update op thread (s.1.stacksOf thread) (b.stacksOf thread) (s.2 thread))

/-- What operations on a new builder leave, with the notes on them. -/
def watched (db : Database) (ops : List Op) :
    Except FatalError (StacksBuilder × (ℕ → σ)) × Database :=
  DbM.runOn (ops.foldlM (watchedStep update) ({}, fun _ => first)) db

theorem watched_concat_ok {db db' : Database} {ops : List Op} {op : Op} {b' : StacksBuilder}
    {notes' : ℕ → σ} :
    watched update first db (ops ++ [op]) = (.ok (b', notes'), db') ↔
      ∃ b notes mid, watched update first db ops = (.ok (b, notes), mid) ∧
        (op.run b).runOn mid = (.ok b', db') ∧
        notes' = fun thread =>
          update op thread (b.stacksOf thread) (b'.stacksOf thread) (notes thread) := by
  rw [watched, List.foldlM_append]
  simp only [List.foldlM_cons, List.foldlM_nil, bind_pure]
  rw [DbM.runOn_bind_eq_ok]
  constructor
  · rintro ⟨⟨b, notes⟩, mid, hops, hop⟩
    obtain ⟨b'', hrun, heq⟩ := DbM.runOn_map_eq_ok.mp hop
    obtain ⟨rfl, rfl⟩ := Prod.mk.inj heq
    exact ⟨b, notes, mid, hops, hrun, rfl⟩
  · rintro ⟨b, notes, mid, hops, hrun, rfl⟩
    exact ⟨(b, notes), mid, hops, DbM.runOn_map_eq_ok.mpr ⟨b', hrun, rfl⟩⟩

/-- Watching changes nothing. -/
theorem after_of_watched {db db' : Database} {ops : List Op} {b : StacksBuilder} {notes : ℕ → σ}
    (h : watched update first db ops = (.ok (b, notes), db')) : after db ops = (.ok b, db') := by
  induction ops using List.reverseRecOn generalizing b notes db' with
  | nil =>
      cases h
      rfl
  | append_singleton ops op ih =>
      obtain ⟨before, notes', mid, hbefore, hrun, -⟩ := (watched_concat_ok update first).mp h
      exact after_concat_ok.mpr ⟨before, mid, ih hbefore, hrun⟩

end Watched

end TibeeCompare.Stacks
