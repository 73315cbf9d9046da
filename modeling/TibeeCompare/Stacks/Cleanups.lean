import TibeeCompare.Stacks.EntryOrder
import TibeeCompare.Lib.Timelines
import Mathlib.Data.List.Fold
import Mathlib.Data.List.Induction
import Mathlib.Data.List.MinMax

/-!
Histories of the stacks with cleanups, against the same histories without them.

A cleanup keeps, for each thread, the last entry that starts before its cutoff and
all later ones. That is enough for what is asked from the cutoff on. It is not enough
for the end of a system call, which goes back to the entry before the last one, nor
for the stack of a system call, which goes to an entry further back.
-/

namespace TibeeCompare.Stacks

open Db Timelines

inductive Op
  | setTimestamp (ts : ℕ)
  | setStack (thread : ℕ) (stackId : StackId) (isSyscall : Bool)
  | setStackNames (thread : ℕ) (stack : List Bytes)
  | setNoStack (thread : ℕ)
  | startSystemCall (thread : ℕ) (syscall : Bytes)
  | endSytemCall (thread : ℕ)
  | setLastSystemCallStack (thread : ℕ) (stackId : StackId)
  | setLastSystemCallStackNames (thread : ℕ) (stack : List Bytes)
  | terminate
  | cleanup (ts : ℕ)

def Op.run (b : StacksBuilder) : Op → DbM StacksBuilder
  | setTimestamp ts => pure (b.setTimestamp ts)
  | setStack thread stackId isSyscall => pure (b.setStack thread stackId isSyscall)
  | setStackNames thread stack => b.setStackNames thread stack
  | setNoStack thread => b.setNoStack thread
  | startSystemCall thread syscall => b.startSystemCall thread syscall
  | endSytemCall thread => b.endSytemCall thread
  | setLastSystemCallStack thread stackId => b.setLastSystemCallStack thread stackId
  | setLastSystemCallStackNames thread stack => b.setLastSystemCallStackNames thread stack
  | terminate => pure b.terminate
  | cleanup ts => pure (b.cleanup ts)

def Op.timestamp? : Op → Option ℕ
  | setTimestamp ts => some ts
  | _ => none

/-- The clock does not go back. -/
def NonDecreasing (ops : List Op) : Prop := (ops.filterMap Op.timestamp?).Pairwise (· ≤ ·)

instance (ops : List Op) : Decidable (NonDecreasing ops) :=
  inferInstanceAs (Decidable (List.Pairwise _ _))

def Op.cutoff? : Op → Option ℕ
  | cleanup ts => some ts
  | _ => none

def cutoffs (ops : List Op) : List ℕ := ops.filterMap Op.cutoff?

def withoutCleanups (ops : List Op) : List Op := ops.filter fun op => op.cutoff?.isNone

/-- What operations on a new builder leave, or the exception of one of them. -/
def after (db : Database) (ops : List Op) : Except FatalError StacksBuilder × Database :=
  DbM.runOn (ops.foldlM Op.run {}) db

/-- The two builders answer all queries from `t` on alike. -/
def AgreeFrom (t : ℕ) (b b' : StacksBuilder) : Prop :=
  ∀ thread, b.getStack thread t = b'.getStack thread t ∧
    ∀ end_, b.enumerateStacks thread t end_ = b'.enumerateStacks thread t end_

/-- Two runs that both return, with results in a relation, or both throw the same. They
leave the same database. -/
inductive Similar {α β : Type} (r : α → β → Prop) :
    Except FatalError α × Database → Except FatalError β × Database → Prop
  | ok {a : α} {b : β} (db : Database) (h : r a b) : Similar r (.ok a, db) (.ok b, db)
  | error (e : FatalError) (db : Database) : Similar r (.error e, db) (.error e, db)

/-- The run with the cleanups answers like the run without them from the cutoffs on. -/
def SameAnswers (db : Database) (ops : List Op) : Prop :=
  Similar (fun b b' => ∀ t, (∀ cutoff ∈ cutoffs ops, cutoff ≤ t) → AgreeFrom t b b')
    (after db (withoutCleanups ops)) (after db ops)

/-! ### Entries that are missed -/

/-- The last entry is a system call and there is an entry before it. -/
def EndsInSyscall (entries : List StackWrapper) : Prop :=
  (entries.getLast?.map StackWrapper.isSyscall) = some true ∧ 1 < entries.length

instance (entries : List StackWrapper) : Decidable (EndsInSyscall entries) :=
  inferInstanceAs (Decidable (_ ∧ _))

/-- The position of the entry that gets the stack of a system call. -/
def unresolvedSyscall (entries : List StackWrapper) : Option ℕ :=
  (lastLongSyscall entries).filter fun i => (entries[i]?).any fun e => !e.isResolved

/-- The entries that an operation goes back to are still there: `b` has all entries,
`b'` those that cleanups left. -/
def Op.Spared (b b' : StacksBuilder) : Op → Prop
  | endSytemCall thread => EndsInSyscall (b.stacksOf thread) → EndsInSyscall (b'.stacksOf thread)
  | setLastSystemCallStack thread _ | setLastSystemCallStackNames thread _ =>
      ∀ i ∈ unresolvedSyscall (b.stacksOf thread),
        (b.stacksOf thread).length ≤ i + (b'.stacksOf thread).length
  | _ => True

instance (b b' : StacksBuilder) : (op : Op) → Decidable (op.Spared b b')
  | .endSytemCall _ => inferInstanceAs (Decidable (_ → _))
  | .setLastSystemCallStack _ _ | .setLastSystemCallStackNames _ _ =>
      inferInstanceAs (Decidable (∀ i ∈ unresolvedSyscall _, _))
  | .setTimestamp _ | .setStack _ _ _ | .setStackNames _ _ | .setNoStack _ | .startSystemCall _ _
  | .terminate | .cleanup _ => isTrue trivial

/-- An operation after two runs finds the entries that it goes back to. -/
def Op.SparedAfter (op : Op) :
    Except FatalError StacksBuilder → Except FatalError StacksBuilder → Prop
  | .ok b, .ok b' => op.Spared b b'
  | _, _ => True

instance (op : Op) : (r r' : Except FatalError StacksBuilder) → Decidable (op.SparedAfter r r')
  | .ok b, .ok b' => inferInstanceAs (Decidable (op.Spared b b'))
  | .ok _, .error _ | .error _, .ok _ | .error _, .error _ => isTrue trivial

/-- Each operation finds the entries that it goes back to. -/
def SparesNeeded (db : Database) (ops : List Op) : Prop :=
  ∀ n, (h : n < ops.length) →
    ops[n].SparedAfter (after db (withoutCleanups (ops.take n))).1 (after db (ops.take n)).1

instance (db : Database) (ops : List Op) : Decidable (SparesNeeded db ops) :=
  inferInstanceAs (Decidable (∀ n, (h : n < ops.length) → _))

/-! ### Two runs on one database -/

namespace Similar

variable {α β α' β' : Type} {r : α → β → Prop} {r' : α' → β' → Prop}

theorem mono {s : α → β → Prop} {x : Except FatalError α × Database}
    {y : Except FatalError β × Database} (h : Similar r x y) (hrs : ∀ a b, r a b → s a b) :
    Similar s x y := by
  cases h with
  | ok db h => exact .ok db (hrs _ _ h)
  | error e db => exact .error e db

theorem refl (x : Except FatalError α × Database) : Similar Eq x x := by
  rcases x with ⟨e | a, db⟩
  · exact .error e db
  · exact .ok db rfl

theorem bind {x : DbM α} {y : DbM β} {next : α → DbM α'} {next' : β → DbM β'} {db : Database}
    (h : Similar r (x.runOn db) (y.runOn db))
    (hnext : ∀ a b db', x.runOn db = (.ok a, db') → y.runOn db = (.ok b, db') → r a b →
      Similar r' ((next a).runOn db') ((next' b).runOn db')) :
    Similar r' (DbM.runOn (x >>= next) db) (DbM.runOn (y >>= next') db) := by
  generalize hx : x.runOn db = result at h
  generalize hy : y.runOn db = result' at h
  cases h with
  | ok db' hr =>
      rw [DbM.runOn_bind_ok hx, DbM.runOn_bind_ok hy]
      exact hnext _ _ db' hx hy hr
  | error e db' =>
      rw [DbM.runOn_bind_error hx, DbM.runOn_bind_error hy]
      exact .error e db'

/-- The same computation, with what follows it depending on the builder. -/
theorem bind_same (x : DbM α) {next : α → DbM α'} {next' : α → DbM β'} {db : Database}
    (hnext : ∀ a db', Similar r' ((next a).runOn db') ((next' a).runOn db')) :
    Similar r' (DbM.runOn (x >>= next) db) (DbM.runOn (x >>= next') db) :=
  bind (refl (x.runOn db)) fun a _ db' _ _ hab => hab ▸ hnext a db'

end Similar

/-! ### One thread -/

def before (t : ℕ) (e : StackWrapper) : Bool := decide (e.startTs < t)

def atOrBefore (t : ℕ) (e : StackWrapper) : Bool := !decide (t < e.startTs)

/-- The stack is that of the last entry that started by `t`, if it has not ended by then. -/
theorem StacksBuilder.getStack_eq_searchBack (b : StacksBuilder) (thread t : ℕ) :
    b.getStack thread t =
      (((searchBack (atOrBefore t) (b.stacksOf thread)).head?.filter fun e =>
        decide (e.startTs ≤ t ∧ t < e.endTs)).map StackWrapper.stackId).getD kEmptyStackId := by
  have hpred : (fun e : StackWrapper => !decide (t < e.startTs)) = atOrBefore t := rfl
  rw [searchBack, List.head?_drop, StacksBuilder.getStack, hpred]
  generalize BinarySearch.partitionPoint (atOrBefore t) (b.stacksOf thread) - 1 = i
  cases (b.stacksOf thread)[i]? with
  | none => rfl
  | some e =>
      by_cases hin : e.startTs ≤ t ∧ t < e.endTs
      · rw [Option.filter_some, if_pos (decide_eq_true hin)]
        exact if_pos hin
      · rw [Option.filter_some, if_neg (by simpa using hin)]
        exact if_neg hin

theorem before_eq_true {t : ℕ} {e : StackWrapper} : before t e = true ↔ e.startTs < t :=
  decide_eq_true_iff

theorem atOrBefore_eq_true {t : ℕ} {e : StackWrapper} : atOrBefore t e = true ↔ e.startTs ≤ t := by
  simp [atOrBefore]

/-- Entries sorted by their starts, none of which starts after `now`. -/
structure Timely (now : ℕ) (entries : List StackWrapper) : Prop where
  sorted : entries.Pairwise fun a b => a.startTs ≤ b.startTs
  le_now : ∀ e ∈ entries, e.startTs ≤ now

namespace Timely

variable {now : ℕ} {entries : List StackWrapper}

theorem mono {now' : ℕ} (h : Timely now entries) (hnow : now ≤ now') : Timely now' entries :=
  ⟨h.sorted, fun e he => (h.le_now e he).trans hnow⟩

theorem before (h : Timely now entries) (t : ℕ) :
    entries.Pairwise fun a b => before t b = true → before t a = true :=
  h.sorted.imp fun hab hb => before_eq_true.mpr (hab.trans_lt (before_eq_true.mp hb))

theorem atOrBefore (h : Timely now entries) (t : ℕ) :
    entries.Pairwise fun a b => atOrBefore t b = true → atOrBefore t a = true :=
  h.sorted.imp fun hab hb => atOrBefore_eq_true.mpr (hab.trans (atOrBefore_eq_true.mp hb))

theorem suffix {kept : List StackWrapper} (h : Timely now entries) (hkept : kept <:+ entries) :
    Timely now kept :=
  ⟨h.sorted.sublist hkept.sublist, fun e he => h.le_now e (hkept.subset he)⟩

theorem of_starts {entries' : List StackWrapper} (h : Timely now entries)
    (hstarts : entries'.map StackWrapper.startTs = entries.map StackWrapper.startTs) :
    Timely now entries' := by
  have hsorted : (entries.map StackWrapper.startTs).Pairwise (· ≤ ·) :=
    List.pairwise_map.mpr h.sorted
  have hle : ∀ start ∈ entries.map StackWrapper.startTs, start ≤ now := by
    intro start hmem
    obtain ⟨e, he, rfl⟩ := List.mem_map.mp hmem
    exact h.le_now e he
  rw [← hstarts] at hsorted hle
  exact ⟨List.pairwise_map.mp hsorted, fun e he => hle _ (List.mem_map_of_mem he)⟩

theorem concat (h : Timely now entries) {e : StackWrapper} (he : e.startTs = now) :
    Timely now (entries ++ [e]) := by
  refine ⟨List.pairwise_append.mpr ⟨h.sorted, List.pairwise_singleton _ _, ?_⟩, ?_⟩
  · intro a ha b hb
    rw [List.mem_singleton.mp hb, he]
    exact h.le_now a ha
  · intro a ha
    rcases List.mem_append.mp ha with ha | ha
    · exact h.le_now a ha
    · rw [List.mem_singleton.mp ha, he]

end Timely

@[simp] theorem map_startTs_closeBack (ts : ℕ) (entries : List StackWrapper) :
    (closeBack ts entries).map StackWrapper.startTs = entries.map StackWrapper.startTs := by
  rcases List.eq_nil_or_concat entries with rfl | ⟨pre, back, rfl⟩
  · rfl
  · simp

theorem closeBack_append (ts : ℕ) (dropped : List StackWrapper) {entries : List StackWrapper}
    (h : entries ≠ []) : closeBack ts (dropped ++ entries) = dropped ++ closeBack ts entries := by
  obtain ⟨pre, back, rfl⟩ := (List.eq_nil_or_concat entries).resolve_left h
  rw [List.concat_eq_append, ← List.append_assoc, closeBack_concat, closeBack_concat,
    List.append_assoc]

/-- `kept` has the entries of a thread that cleanups up to `cutoff` leave. -/
structure Cleaned (cutoff now : ℕ) (entries kept : List StackWrapper) : Prop where
  timely : Timely now entries
  trims : Trims (before cutoff) entries kept

namespace Cleaned

variable {cutoff now : ℕ} {entries kept : List StackWrapper}

/-- Changes to entries that are kept, without one to the starts. -/
theorem of_starts {dropped kept' : List StackWrapper}
    (h : Cleaned cutoff now (dropped ++ kept) kept)
    (hstarts : kept'.map StackWrapper.startTs = kept.map StackWrapper.startTs) :
    Cleaned cutoff now (dropped ++ kept') kept' :=
  ⟨h.timely.of_starts (by rw [List.map_append, List.map_append, hstarts]),
    Trims.of_map (f := StackWrapper.startTs) (q := fun start => decide (start < cutoff)) h.trims
      hstarts⟩

theorem closeBack (h : Cleaned cutoff now entries kept) (ts : ℕ) :
    Cleaned cutoff now (closeBack ts entries) (closeBack ts kept) := by
  by_cases hnil : kept = []
  · obtain rfl := h.trims.eq_nil_iff.mp hnil
    subst hnil
    exact h
  · obtain ⟨dropped, rfl⟩ := h.trims.suffix
    rw [closeBack_append ts dropped hnil]
    exact h.of_starts (map_startTs_closeBack ts kept)

theorem setEntry (h : Cleaned cutoff now entries kept) (stackId : StackId) (isSyscall : Bool) :
    Cleaned cutoff now (setEntry now stackId isSyscall entries)
      (setEntry now stackId isSyscall kept) := by
  have hlast := h.trims.getLast?
  have hclosed := h.closeBack now
  rcases setEntry_cases now stackId isSyscall entries with ⟨back, hback, hid, heq⟩ | ⟨hne, heq⟩
  · have heq' : Stacks.setEntry now stackId isSyscall kept = Stacks.closeBack now kept := by
      rw [Stacks.setEntry]
      exact if_pos (by rw [getLast?_closeBack, hlast, hback]; exact congrArg some hid)
    rwa [heq, heq']
  · have heq' : Stacks.setEntry now stackId isSyscall kept =
        Stacks.closeBack now kept ++ [⟨stackId, now, now, isSyscall, false⟩] := by
      rw [Stacks.setEntry]
      refine if_neg fun hid => ?_
      rw [getLast?_closeBack, hlast] at hid
      cases hback : entries.getLast? with
      | none => rw [hback] at hid; cases hid
      | some back =>
          rw [hback] at hid
          exact hne back hback (Option.some.inj hid)
    rw [heq, heq']
    exact ⟨hclosed.timely.concat rfl, hclosed.trims.append _⟩

theorem cleanup (h : Cleaned cutoff now entries kept) (ts : ℕ) :
    Cleaned (max cutoff ts) now entries (searchBack (before ts) kept) := by
  have hkept := h.timely.suffix h.trims.suffix
  refine ⟨h.timely, Trims.trans (h.trims.mono fun e he => ?_)
    ((trims_searchBack (hkept.before ts)).mono fun e he => ?_)⟩
  · exact before_eq_true.mpr ((before_eq_true.mp he).trans_le (Nat.le_max_left _ _))
  · exact before_eq_true.mpr ((before_eq_true.mp he).trans_le (Nat.le_max_right _ _))

/-- The entry before the last one is kept if it is needed. -/
theorem previous_eq (h : Cleaned cutoff now entries kept)
    (hspared : EndsInSyscall entries → EndsInSyscall kept)
    (hsyscall : entries.getLast?.map StackWrapper.isSyscall = some true) :
    kept.dropLast.getLast? = entries.dropLast.getLast? := by
  obtain ⟨dropped, rfl, rfl | ⟨first, hfirst, -⟩⟩ := h.trims
  · rfl
  · have hkept : kept ≠ [] := fun hnil => by rw [hnil] at hfirst; cases hfirst
    have hpos : 0 < kept.length := List.length_pos_iff.mpr hkept
    rcases Nat.eq_zero_or_pos dropped.length with hzero | hdropped
    · rw [List.length_eq_zero_iff.mp hzero]
      rfl
    · have htwo : 1 < kept.length := (hspared ⟨hsyscall, by
        rw [List.length_append]
        omega⟩).2
      have hinit : kept.dropLast ≠ [] := by
        apply List.length_pos_iff.mp
        rw [List.length_dropLast]
        omega
      rw [List.dropLast_append_of_ne_nil hkept, List.getLast?_append_of_ne_nil _ hinit]

end Cleaned

/-! ### The system call that gets a stack -/

theorem lastLongSyscall_append_of_some (dropped : List StackWrapper) {kept : List StackWrapper}
    {i : ℕ}
    (h : lastLongSyscall kept = some i) :
    lastLongSyscall (dropped ++ kept) = some (dropped.length + i) := by
  obtain ⟨j, hj, rfl⟩ := Option.map_eq_some_iff.mp h
  have hlt : j < kept.length := by
    have hbound := (List.findIdx?_eq_some_iff_getElem.mp hj).1
    rw [List.length_take, List.length_reverse] at hbound
    omega
  rw [lastLongSyscall, List.reverse_append, List.take_append, List.findIdx?_append, hj,
    List.length_append]
  simp only [Option.some_or, Option.map_some, Option.some.injEq]
  omega

theorem lt_of_lastLongSyscall_append {dropped kept : List StackWrapper} {i : ℕ}
    (h : lastLongSyscall (dropped ++ kept) = some i) (hkept : lastLongSyscall kept = none) :
    i < dropped.length := by
  rw [lastLongSyscall, Option.map_eq_none_iff] at hkept
  rw [lastLongSyscall, List.reverse_append, List.take_append, List.findIdx?_append, hkept] at h
  simp only [Option.none_or, Option.map_map, Option.map_eq_some_iff, Function.comp_apply,
    List.length_append] at h
  obtain ⟨j, hj, rfl⟩ := h
  have hbound := (List.findIdx?_eq_some_iff_getElem.mp hj).1
  rw [List.length_take, List.length_reverse, List.length_reverse] at hbound
  rw [List.length_take, List.length_reverse]
  omega

/-- The entry that gets the stack, with its position. -/
def syscallToResolve (entries : List StackWrapper) : Option (ℕ × StackWrapper) :=
  (unresolvedSyscall entries).bind fun i => (entries[i]?).map (i, ·)

/-- Gives that entry its stack. -/
def resolveSyscall (b : StacksBuilder) (thread : ℕ) (stackId : StackId) (found : ℕ × StackWrapper) :
    DbM StacksBuilder := do
  let syscallOnlyStack ← Db.getStack found.2.stackId
  let syscallFullStack ← addStack ⟨syscallOnlyStack.function, stackId⟩
  pure (b.updateThread thread
    ((b.stacksOf thread).set found.1
      { found.2 with stackId := syscallFullStack, isResolved := true }))

theorem setLastSystemCallStack_eq (b : StacksBuilder) (thread : ℕ) (stackId : StackId) :
    b.setLastSystemCallStack thread stackId =
      (syscallToResolve (b.stacksOf thread)).elim (pure b) (resolveSyscall b thread stackId) := by
  rw [StacksBuilder.setLastSystemCallStack, syscallToResolve, unresolvedSyscall]
  cases hlast : lastLongSyscall (b.stacksOf thread) with
  | none => rfl
  | some i =>
      cases hentry : (b.stacksOf thread)[i]? with
      | none =>
          simp only [Option.bind_some, Option.filter_some, hentry]
          rfl
      | some entry =>
          cases hresolved : entry.isResolved with
          | true =>
              simp only [Option.bind_some, Option.filter_some, hentry, Option.any_some, hresolved,
                Option.map_some, Bool.not_true, if_true]
              rfl
          | false =>
              simp only [Option.bind_some, Option.filter_some, hentry, Option.any_some, hresolved,
                Option.map_some, Bool.not_false, if_true]
              rfl

theorem getElem?_of_syscallToResolve {entries : List StackWrapper} {found : ℕ × StackWrapper}
    (h : syscallToResolve entries = some found) : entries[found.1]? = some found.2 := by
  obtain ⟨i, -, hpair⟩ := Option.bind_eq_some_iff.mp h
  obtain ⟨e, he, rfl⟩ := Option.map_eq_some_iff.mp hpair
  exact he

/-- The same entry is found among those that are kept, if it is one of them. -/
theorem syscallToResolve_append {dropped kept : List StackWrapper}
    (hspared : ∀ i ∈ unresolvedSyscall (dropped ++ kept), dropped.length ≤ i) :
    syscallToResolve (dropped ++ kept) =
      (syscallToResolve kept).map fun found => (dropped.length + found.1, found.2) := by
  cases hkept : lastLongSyscall kept with
  | some i =>
      have hget : (dropped ++ kept)[dropped.length + i]? = kept[i]? := by
        rw [List.getElem?_append_right (Nat.le_add_right _ _), Nat.add_sub_cancel_left]
      rw [syscallToResolve, syscallToResolve, unresolvedSyscall, unresolvedSyscall,
        lastLongSyscall_append_of_some dropped hkept, hkept]
      cases hresolved : (kept[i]?).any fun e => !e.isResolved with
      | true =>
          simp [Option.filter_some, hget, hresolved, Function.comp_def]
      | false =>
          simp [Option.filter_some, hget, hresolved]
  | none =>
      have hnone : unresolvedSyscall (dropped ++ kept) = none := by
        cases hfound : unresolvedSyscall (dropped ++ kept) with
        | none => rfl
        | some i =>
            have hlast := (Option.filter_eq_some_iff.mp hfound).1
            exact absurd (hspared i hfound)
              (Nat.not_le.mpr (lt_of_lastLongSyscall_append hlast hkept))
      rw [syscallToResolve, syscallToResolve, hnone, unresolvedSyscall, hkept]
      rfl

/-! ### All threads -/

/-- `b'` is `b` after cleanups with cutoffs up to `cutoff`. -/
structure Follows (cutoff : ℕ) (b b' : StacksBuilder) : Prop where
  ts : b'.ts = b.ts
  thread : ∀ thread, Cleaned cutoff b.ts (b.stacksOf thread) (b'.stacksOf thread)

/-- What an operation leaves in a run with cleanups, against one without, from builders
at the time `now`. -/
def Stepped (cutoff now : ℕ) (op : Op) (s s' : StacksBuilder) : Prop :=
  Follows cutoff s s' ∧ s.ts = op.timestamp?.getD now

namespace Follows

variable {cutoff : ℕ} {b b' : StacksBuilder}

theorem setTimestamp (h : Follows cutoff b b') {ts : ℕ} (hts : b.ts ≤ ts) :
    Follows cutoff (b.setTimestamp ts) (b'.setTimestamp ts) :=
  ⟨rfl, fun thread => ⟨(h.thread thread).timely.mono hts, (h.thread thread).trims⟩⟩

theorem updateThread (h : Follows cutoff b b') {thread : ℕ} {entries entries' : List StackWrapper}
    (hentries : Cleaned cutoff b.ts entries entries') :
    Follows cutoff (b.updateThread thread entries) (b'.updateThread thread entries') := by
  refine ⟨h.ts, fun other => ?_⟩
  by_cases hother : other = thread
  · subst hother
    rw [StacksBuilder.stacksOf_updateThread, StacksBuilder.stacksOf_updateThread]
    exact hentries
  · rw [b.updateThread_of_ne hother, b'.updateThread_of_ne hother]
    exact h.thread other

theorem setStack (h : Follows cutoff b b') (thread : ℕ) (stackId : StackId) (isSyscall : Bool) :
    Follows cutoff (b.setStack thread stackId isSyscall)
      (b'.setStack thread stackId isSyscall) := by
  refine h.updateThread ?_
  rw [h.ts]
  exact (h.thread thread).setEntry stackId isSyscall

theorem terminate (h : Follows cutoff b b') : Follows cutoff b.terminate b'.terminate := by
  refine ⟨h.ts, fun thread => ?_⟩
  rw [StacksBuilder.terminate, StacksBuilder.terminate, h.ts]
  exact (h.thread thread).closeBack b.ts

theorem cleanup (h : Follows cutoff b b') (ts : ℕ) : Follows (max cutoff ts) b (b'.cleanup ts) :=
  ⟨h.ts, fun thread => (h.thread thread).cleanup ts⟩

theorem setNoStack (h : Follows cutoff b b') (thread : ℕ) (db : Database) :
    Similar (Stepped cutoff b.ts (.setNoStack thread)) ((b.setNoStack thread).runOn db)
      ((b'.setNoStack thread).runOn db) :=
  .bind_same _ fun stackId db' => .ok db' ⟨h.setStack thread stackId true, rfl⟩

theorem endSytemCall (h : Follows cutoff b b') (thread : ℕ) (db : Database)
    (hspared : (Op.endSytemCall thread).Spared b b') :
    Similar (Stepped cutoff b.ts (.endSytemCall thread)) ((b.endSytemCall thread).runOn db)
      ((b'.endSytemCall thread).runOn db) := by
  have hcleaned := h.thread thread
  rw [StacksBuilder.endSytemCall, StacksBuilder.endSytemCall, hcleaned.trims.getLast?]
  cases hback : (b.stacksOf thread).getLast? with
  | none => exact .ok db ⟨h, rfl⟩
  | some back =>
      cases hsyscall : back.isSyscall with
      | false =>
          simp only [hsyscall, Bool.not_false, if_true]
          exact .ok db ⟨h, rfl⟩
      | true =>
          simp only [hsyscall, Bool.not_true, Bool.false_eq_true, if_false]
          rw [hcleaned.previous_eq hspared (by rw [hback, ← hsyscall]; rfl)]
          cases (b.stacksOf thread).dropLast.getLast? with
          | none => exact h.setNoStack thread db
          | some previous => exact .ok db ⟨h.setStack thread previous.stackId false, rfl⟩

theorem setLastSystemCallStack (h : Follows cutoff b b') (thread : ℕ) (stackId : StackId)
    (db : Database) (hspared : (Op.setLastSystemCallStack thread stackId).Spared b b') :
    Similar (Stepped cutoff b.ts (.setLastSystemCallStack thread stackId))
      ((b.setLastSystemCallStack thread stackId).runOn db)
      ((b'.setLastSystemCallStack thread stackId).runOn db) := by
  have hcleaned := h.thread thread
  obtain ⟨dropped, hdropped⟩ := hcleaned.trims.suffix
  have hkept : ∀ i ∈ unresolvedSyscall (dropped ++ b'.stacksOf thread), dropped.length ≤ i := by
    intro i hi
    have hlength := hspared i (hdropped ▸ hi)
    rw [← hdropped, List.length_append] at hlength
    omega
  rw [setLastSystemCallStack_eq, setLastSystemCallStack_eq, ← hdropped,
    syscallToResolve_append hkept]
  rw [← hdropped] at hcleaned
  cases hfound : syscallToResolve (b'.stacksOf thread) with
  | none => exact .ok db ⟨h, rfl⟩
  | some found =>
      refine .bind_same _ fun syscallOnlyStack db' => .bind_same _ fun syscallFullStack db'' =>
        .ok db'' ⟨h.updateThread ?_, rfl⟩
      rw [← hdropped, List.set_append_right _ _ (Nat.le_add_right _ _), Nat.add_sub_cancel_left]
      exact hcleaned.of_starts (map_set_eq (getElem?_of_syscallToResolve hfound) rfl)

/-- An operation other than a cleanup, on a clock that does not go back. -/
theorem run (h : Follows cutoff b b') {op : Op} (hop : op.cutoff? = none)
    (hclock : ∀ ts, op.timestamp? = some ts → b.ts ≤ ts) (hspared : op.Spared b b')
    (db : Database) :
    Similar (Stepped cutoff b.ts op) ((op.run b).runOn db) ((op.run b').runOn db) := by
  cases op with
  | setTimestamp ts => exact .ok db ⟨h.setTimestamp (hclock ts rfl), rfl⟩
  | setStack thread stackId isSyscall => exact .ok db ⟨h.setStack thread stackId isSyscall, rfl⟩
  | setStackNames thread stack =>
      exact .bind_same _ fun stackId db' => .ok db' ⟨h.setStack thread stackId false, rfl⟩
  | setNoStack thread => exact h.setNoStack thread db
  | startSystemCall thread syscall =>
      exact .bind_same _ fun stackId db' => .ok db' ⟨h.setStack thread stackId true, rfl⟩
  | endSytemCall thread => exact h.endSytemCall thread db hspared
  | setLastSystemCallStack thread stackId =>
      exact h.setLastSystemCallStack thread stackId db hspared
  | setLastSystemCallStackNames thread stack =>
      exact .bind_same _ fun stackId db' => h.setLastSystemCallStack thread stackId db' hspared
  | terminate => exact .ok db ⟨h.terminate, rfl⟩
  | cleanup ts => cases hop

theorem agreeFrom (h : Follows cutoff b b') {t : ℕ} (ht : cutoff ≤ t) : AgreeFrom t b b' := by
  intro thread
  have hcleaned := h.thread thread
  have hstart : ∀ e, before cutoff e = true → before t e = true := fun e he =>
    before_eq_true.mpr ((before_eq_true.mp he).trans_le ht)
  have hat : ∀ e, before cutoff e = true → atOrBefore t e = true := fun e he =>
    atOrBefore_eq_true.mpr ((before_eq_true.mp he).le.trans ht)
  constructor
  · have heq := (hcleaned.trims.mono hat).searchBack_eq (hcleaned.timely.atOrBefore t)
    rw [StacksBuilder.getStack_eq_searchBack, StacksBuilder.getStack_eq_searchBack, heq]
  · intro end_
    have heq := (hcleaned.trims.mono hstart).searchBack_eq (hcleaned.timely.before t)
    have henumerate : ∀ b : StacksBuilder, b.enumerateStacks thread t end_ =
        ((searchBack (before t) (b.stacksOf thread)).takeWhile fun e => e.startTs ≤ end_).map
          fun e => (e.stackId, subU64 (min end_ e.endTs) (max t e.startTs)) := fun _ => rfl
    rw [henumerate, henumerate, heq]

end Follows

/-! ### Whole runs -/

theorem after_concat (db : Database) (ops : List Op) (op : Op) :
    after db (ops ++ [op]) = DbM.runOn (ops.foldlM Op.run {} >>= fun b => op.run b) db := by
  rw [after, List.foldlM_append]
  simp only [List.foldlM_cons, List.foldlM_nil, bind_pure]

/-- The latest of the cutoffs. -/
def latest (ops : List Op) : ℕ := (cutoffs ops).foldl max 0

theorem latest_le {t : ℕ} {ops : List Op} (h : ∀ cutoff ∈ cutoffs ops, cutoff ≤ t) :
    latest ops ≤ t :=
  foldl_max_le (Nat.zero_le t) h

theorem latest_cleanup (ops : List Op) (ts : ℕ) :
    latest (ops ++ [.cleanup ts]) = max (latest ops) ts := by
  rw [latest, cutoffs, List.filterMap_append, List.foldl_append]
  rfl

theorem latest_of_not_cleanup (ops : List Op) {op : Op} (h : op.cutoff? = none) :
    latest (ops ++ [op]) = latest ops := by
  rw [latest, cutoffs, List.filterMap_append, List.filterMap_cons_none h, List.filterMap_nil,
    List.append_nil]
  rfl

theorem SparesNeeded.of_append {db : Database} {ops rest : List Op}
    (h : SparesNeeded db (ops ++ rest)) :
    SparesNeeded db ops := by
  intro n hn
  have hspared := h n (by rw [List.length_append]; omega)
  rwa [List.getElem_append_left hn, List.take_append_of_le_length hn.le] at hspared

theorem SparesNeeded.last {db : Database} {ops : List Op} {op : Op}
    (h : SparesNeeded db (ops ++ [op])) :
    op.SparedAfter (after db (withoutCleanups ops)).1 (after db ops).1 := by
  have hspared := h ops.length (by simp)
  rwa [List.getElem_concat_length rfl, List.take_left] at hspared

/-- Two runs that go on alike. -/
def Related (ops : List Op) (b b' : StacksBuilder) : Prop :=
  Follows (latest ops) b b' ∧ b.ts ∈ 0 :: ops.filterMap Op.timestamp?

theorem after_related {db : Database} {ops : List Op} (hclock : NonDecreasing ops)
    (hspares : SparesNeeded db ops) :
    Similar (Related ops) (after db (withoutCleanups ops)) (after db ops) := by
  induction ops using List.reverseRecOn with
  | nil =>
      refine .ok db ⟨⟨rfl, fun thread => ⟨⟨List.Pairwise.nil, ?_⟩, Trims.refl _ _⟩⟩,
        List.mem_cons_self⟩
      intro e he
      cases he
  | append_singleton ops op ih =>
      rw [NonDecreasing, List.filterMap_append, List.pairwise_append] at hclock
      obtain ⟨hops, -, hlater⟩ := hclock
      have hrelated := ih hops hspares.of_append
      rw [after_concat]
      cases hop : op.cutoff? with
      -- a cleanup: only the second run has it, and drops what nothing asks for any more
      | some ts =>
          obtain rfl : op = .cleanup ts := by
            cases op <;> cases hop
            rfl
          have hkept : withoutCleanups (ops ++ [.cleanup ts]) = withoutCleanups ops := by
            rw [withoutCleanups, List.filter_append]
            exact List.append_nil _
          rw [hkept, after, ← bind_pure (List.foldlM Op.run {} (withoutCleanups ops))]
          refine hrelated.bind fun b b' db' _ _ h => .ok db' ⟨?_, ?_⟩
          · rw [latest_cleanup]
            exact h.1.cleanup ts
          · rw [List.filterMap_append]
            exact List.cons_subset_cons 0 (List.subset_append_left _ _) h.2
      -- anything else, which both runs do, and not at a time before the one they are at
      | none =>
          have hkept : withoutCleanups (ops ++ [op]) = withoutCleanups ops ++ [op] := by
            rw [withoutCleanups, List.filter_append, List.filter_cons_of_pos (by rw [hop]; rfl)]
            rfl
          rw [hkept, after_concat]
          refine hrelated.bind fun b b' db' hb hb' h => ?_
          have hspared : op.Spared b b' := by
            have hlast := hspares.last
            rwa [after, after, hb, hb'] at hlast
          have hnow : ∀ ts, op.timestamp? = some ts → b.ts ≤ ts := by
            intro ts hts
            rcases List.mem_cons.mp h.2 with hzero | hmem
            · rw [hzero]
              exact Nat.zero_le ts
            · refine hlater _ hmem ts ?_
              rw [List.filterMap_cons_some hts]
              exact List.mem_cons_self
          refine (h.1.run hop hnow hspared db').mono fun s s' hstep => ⟨?_, ?_⟩
          · rw [latest_of_not_cleanup ops hop]
            exact hstep.1
          · rw [hstep.2, List.filterMap_append]
            cases hts : op.timestamp? with
            | none => exact List.cons_subset_cons 0 (List.subset_append_left _ _) h.2
            | some ts =>
                rw [List.filterMap_cons_some hts]
                exact List.mem_cons_of_mem _ (List.mem_append_right _ List.mem_cons_self)

/-- Cleanups change nothing that is asked from the cutoffs on, as long as no operation
goes back to an entry that one of them dropped. -/
theorem sameAnswers_of_sparesNeeded {db : Database} {ops : List Op} (hclock : NonDecreasing ops)
    (hspares : SparesNeeded db ops) : SameAnswers db ops :=
  (after_related hclock hspares).mono fun _ _ h _ ht => h.1.agreeFrom (latest_le ht)

/-- A system call that starts after the cutoff of a cleanup and ends later, and one that
gets its stack. -/
def syscallAfterCleanup : List Op :=
  [.setStack 1 9 false, .setTimestamp 3, .setStack 1 8 false, .setTimestamp 5,
    .startSystemCall 1 (str "read"), .cleanup 4, .setTimestamp 200000, .endSytemCall 1,
    .setLastSystemCallStack 1 8]

theorem sameAnswers_syscallAfterCleanup : SameAnswers {} syscallAfterCleanup :=
  sameAnswers_of_sparesNeeded (by decide) (by decide +kernel)

theorem SameAnswers.getStack_eq {db : Database} {ops : List Op} (h : SameAnswers db ops)
    (thread : ℕ) {t : ℕ} (ht : ∀ cutoff ∈ cutoffs ops, cutoff ≤ t) :
    (after db (withoutCleanups ops)).1.map (fun b => b.getStack thread t) =
      (after db ops).1.map fun b => b.getStack thread t := by
  rw [SameAnswers] at h
  generalize after db (withoutCleanups ops) = all, after db ops = kept at h
  cases h with
  | ok db' hagree => exact congrArg Except.ok (hagree t ht thread).1
  | error e db' => rfl

/-- A system call that starts before the cutoff of a cleanup and ends after it: the stack
from before it is gone. -/
def syscallOverCleanup : List Op :=
  [.setTimestamp 1, .setStackNames 1 [str "f"], .setTimestamp 5, .startSystemCall 1 (str "read"),
    .setTimestamp 10, .cleanup 10, .setTimestamp 20, .endSytemCall 1, .setTimestamp 30, .terminate]

theorem not_sameAnswers_syscallOverCleanup :
    NonDecreasing syscallOverCleanup ∧ ¬ SameAnswers {} syscallOverCleanup := by
  refine ⟨by decide, fun h => ?_⟩
  have heq := h.getStack_eq 1 (t := 25) (by decide)
  exact absurd heq (by decide +kernel)

end TibeeCompare.Stacks
