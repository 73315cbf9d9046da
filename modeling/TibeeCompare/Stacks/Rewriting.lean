import TibeeCompare.Stacks.Instants
import TibeeCompare.Db.Interned
import Mathlib.Data.List.Forall2

/-!
Which entry `SetLastSystemCallStack` gives a stack to.

The call looks for the last long entry that is marked as a system call. `StartSystemCall`
is not alone in marking entries: 'No Stack' is recorded with the same mark. A run that
notes for each entry by which operation it was recorded, and whether it was given another
stack since, tells them apart.
-/

namespace TibeeCompare.Stacks

open Db Intervals

/-! ### Where the entries come from -/

/-- What is noted of an entry. -/
structure Recorded where
  op : Op
  isRewritten : Bool

/-- The notes on some entries, after the entries were changed. An entry is rewritten by a change
to anything but its end. -/
def marked : List StackWrapper → List StackWrapper → List Recorded → List Recorded
  | e :: entries, e' :: entries', r :: records =>
      { r with isRewritten := r.isRewritten || decide (e' ≠ { e with endTs := e'.endTs }) } ::
        marked entries entries' records
  | _, _, _ => []

/-- The notes on the entries of a thread after an operation: on one entry more, on the same
entries, or on those that are left of them. -/
def recordedStep (op : Op) (_thread : ℕ) (entries entries' : List StackWrapper)
    (records : List Recorded) : List Recorded :=
  if entries.length < entries'.length then
    marked entries (entries'.take entries.length) records ++ [⟨op, false⟩]
  else
    marked (entries.drop (entries.length - entries'.length)) entries'
      (records.drop (entries.length - entries'.length))

/-- A run with notes on all entries. -/
def recorded (db : Database) (ops : List Op) :
    Except FatalError (StacksBuilder × (ℕ → List Recorded)) × Database :=
  watched recordedStep [] db ops

/-- What the notes on an entry tell of it. -/
structure Noted (e : StackWrapper) (r : Recorded) : Prop where
  syscall : e.isSyscall = true → r.op.setsSyscall = true
  rewritten : r.isRewritten = e.isResolved

/-- An entry after a change: it has another end, or it was given a stack for the first time. -/
structure Evolves (e e' : StackWrapper) : Prop where
  syscall : e'.isSyscall = e.isSyscall
  change : e' = { e with endTs := e'.endTs } ∨ (e.isResolved = false ∧ e'.isResolved = true)

theorem Evolves.refl (e : StackWrapper) : Evolves e e := ⟨rfl, .inl rfl⟩

theorem noted_marked {entries entries' : List StackWrapper} {records : List Recorded}
    (h : List.Forall₂ Evolves entries entries') (hnoted : List.Forall₂ Noted entries records) :
    List.Forall₂ Noted entries' (marked entries entries' records) := by
  induction h generalizing records with
  | nil => exact List.Forall₂.nil
  | @cons e e' entries entries' hevolves _ ih =>
      cases hnoted with
      | @cons _ r _ records hr hrecords =>
          refine List.Forall₂.cons ⟨?_, ?_⟩ (ih hrecords)
          · rw [hevolves.syscall]
            exact hr.syscall
          · rcases hevolves.change with heq | ⟨hfalse, htrue⟩
            · rw [decide_eq_false (not_not.mpr heq), Bool.or_false, hr.rewritten, heq]
            · have hne : e' ≠ { e with endTs := e'.endTs } := by
                intro heq
                rw [heq, hfalse] at htrue
                cases htrue
              rw [decide_eq_true hne, Bool.or_true, htrue]

theorem evolves_closeBack (ts : ℕ) (entries : List StackWrapper) :
    List.Forall₂ Evolves entries (closeBack ts entries) := by
  rcases List.eq_nil_or_concat entries with rfl | ⟨pre, back, rfl⟩
  · exact List.Forall₂.nil
  · rw [List.concat_eq_append, closeBack_concat]
    exact List.rel_append (List.forall₂_same.mpr fun e _ => Evolves.refl e)
      (.cons ⟨rfl, .inl rfl⟩ .nil)

theorem evolves_set {entries : List StackWrapper} {i : ℕ} {e e' : StackWrapper}
    (he : entries[i]? = some e) (h : Evolves e e') :
    List.Forall₂ Evolves entries (entries.set i e') := by
  induction entries generalizing i with
  | nil => cases he
  | cons head rest ih =>
      cases i with
      | zero =>
          obtain rfl := Option.some.inj he
          exact .cons h (List.forall₂_same.mpr fun e _ => Evolves.refl e)
      | succ i => exact .cons (Evolves.refl head) (ih he)

theorem isResolved_of_syscallToResolve {entries : List StackWrapper} {found : ℕ × StackWrapper}
    (h : syscallToResolve entries = some found) : found.2.isResolved = false := by
  obtain ⟨i, hi, hpair⟩ := Option.bind_eq_some_iff.mp h
  obtain ⟨e, he, rfl⟩ := Option.map_eq_some_iff.mp hpair
  have hany := (Option.filter_eq_some_iff.mp hi).2
  rw [he] at hany
  simpa using hany

/-- The notes stay true, whatever an operation does to a thread. -/
theorem Change.noted {op : Op} {ts thread : ℕ} {entries entries' : List StackWrapper}
    {records : List Recorded} (h : Change op ts entries entries')
    (hnoted : List.Forall₂ Noted entries records) :
    List.Forall₂ Noted entries' (recordedStep op thread entries entries' records) := by
  have hsame : ∀ entries', List.Forall₂ Evolves entries entries' →
      List.Forall₂ Noted entries' (recordedStep op thread entries entries' records) := by
    intro entries' hevolves
    rw [recordedStep, if_neg hevolves.length_eq.symm.not_gt, hevolves.length_eq, Nat.sub_self]
    exact noted_marked hevolves hnoted
  cases h with
  | kept => exact hsame _ (List.forall₂_same.mpr fun e _ => Evolves.refl e)
  | set stackId isSyscall hflag =>
      have hclosed := evolves_closeBack ts entries
      rcases setEntry_cases ts stackId isSyscall entries with ⟨-, -, -, heq⟩ | ⟨-, heq⟩
      · rw [heq]
        exact hsame _ hclosed
      · have htake : (setEntry ts stackId isSyscall entries).take entries.length =
            closeBack ts entries := by
          rw [heq, hclosed.length_eq, List.take_left]
        have hlt : entries.length < (setEntry ts stackId isSyscall entries).length := by
          rw [heq, List.length_append, hclosed.length_eq]
          exact Nat.lt_succ_self _
        rw [recordedStep, if_pos hlt, htake, heq]
        exact List.rel_append (noted_marked hclosed hnoted) (.cons ⟨hflag, rfl⟩ .nil)
  | resolved found stackId hfound =>
      exact hsame _ (evolves_set (getElem?_of_syscallToResolve hfound)
        ⟨rfl, .inr ⟨isResolved_of_syscallToResolve hfound, rfl⟩⟩)
  | closed => exact hsame _ (evolves_closeBack ts entries)
  -- as many notes are dropped from the front as entries
  | dropped n =>
      have hlength : (entries.drop n).length ≤ entries.length :=
        (List.drop_sublist n entries).length_le
      rw [recordedStep, if_neg hlength.not_gt]
      have hdrop : entries.drop (entries.length - (entries.drop n).length) = entries.drop n := by
        rcases Nat.le_total n entries.length with hle | hle
        · rw [List.length_drop, Nat.sub_sub_self hle]
        · rw [List.drop_of_length_le hle, List.length_nil, Nat.sub_zero, List.drop_length]
      have hkept := List.forall₂_drop (entries.length - (entries.drop n).length) hnoted
      rw [hdrop] at hkept ⊢
      exact noted_marked (List.forall₂_same.mpr fun e _ => Evolves.refl e) hkept

theorem recorded_noted {db db' : Database} {ops : List Op} {b : StacksBuilder}
    {records : ℕ → List Recorded} (h : recorded db ops = (.ok (b, records), db')) (thread : ℕ) :
    List.Forall₂ Noted (b.stacksOf thread) (records thread) := by
  induction ops using List.reverseRecOn generalizing b records db' with
  | nil =>
      cases h
      exact List.Forall₂.nil
  | append_singleton ops op ih =>
      obtain ⟨before, notes, mid, hbefore, hrun, rfl⟩ := (watched_concat_ok _ _).mp h
      exact ((Op.run_change hrun).2 thread).noted (ih hbefore)

/-! ### The call -/

/-- The entry was recorded by `StartSystemCall`. -/
def Op.startsSyscall : Op → Bool
  | startSystemCall _ _ => true
  | _ => false

/-- The operation marks entries as system calls that are none: 'No Stack', or what `SetStack` is
told to mark. -/
def Op.marksOther : Op → Bool
  | setNoStack _ | endSytemCall _ | setStack _ _ _ => true
  | _ => false

/-- What `SetLastSystemCallStack` did to the entry `e`, the one at `i`, when it left `b'`. -/
structure Rewrites (b b' : StacksBuilder) (records : List Recorded) (db db' : Database)
    (thread : ℕ) (stackId : StackId) (i : ℕ) (e : StackWrapper) : Prop where
  entry : (b.stacksOf thread)[i]? = some e
  /-- The entry is a system call that was not given a stack before. -/
  syscall : ∃ r, records[i]? = some r ∧ r.op.startsSyscall = true ∧ r.isRewritten = false
  long : e.startTs + kMinSyscallDuration ≤ e.endTs
  /-- The function of the system call on top of the given stack. -/
  stack : ∃ step mid newId, (Db.getStack e.stackId).runOn db = (.ok step, mid) ∧
    (addStack ⟨step.function, stackId⟩).runOn mid = (.ok newId, db') ∧
    b' = b.updateThread thread
      ((b.stacksOf thread).set i { e with stackId := newId, isResolved := true }) ∧
    ∀ t, e.startTs ≤ t → t < e.endTs →
      b.getStack thread t = e.stackId ∧ b'.getStack thread t = newId
  others : ∀ other, other ≠ thread → b'.stacksOf other = b.stacksOf other
  rest : ∀ j, j ≠ i → (b'.stacksOf thread)[j]? = (b.stacksOf thread)[j]?
  times : (b'.stacksOf thread).map StackWrapper.times = (b.stacksOf thread).map StackWrapper.times
  outside : ∀ t, ¬ (e.startTs ≤ t ∧ t < e.endTs) → b'.getStack thread t = b.getStack thread t

/-- `SetLastSystemCallStack` after a run changes nothing, or a long system call that was not given
a stack before. -/
def RewritesSyscalls (thread : ℕ) (stackId : StackId) :
    Except FatalError (StacksBuilder × (ℕ → List Recorded)) × Database → Prop
  | (.ok (b, records), db) =>
      ∀ b' db', (b.setLastSystemCallStack thread stackId).runOn db = (.ok b', db') →
        b' = b ∨ ∃ i e, Rewrites b b' (records thread) db db' thread stackId i e
  | (.error _, _) => True

def knowsStack (db : Database) (stackId : StackId) : Bool :=
  match ((Db.getStack stackId).runOn db).1 with
  | .ok _ => true
  | .error _ => false

/-- The last long entry that is marked as a system call and was not given a stack, if its stack is
in the database, is not one that was marked by another operation. -/
def FindsSyscall (thread : ℕ) :
    Except FatalError (StacksBuilder × (ℕ → List Recorded)) × Database → Prop
  | (.ok (b, records), db) =>
      ∀ found ∈ syscallToResolve (b.stacksOf thread), knowsStack db found.2.stackId = true →
        ((records thread)[found.1]?).all fun r => !r.op.marksOther
  | (.error _, _) => True

instance (thread : ℕ) :
    (r : Except FatalError (StacksBuilder × (ℕ → List Recorded)) × Database) →
    Decidable (FindsSyscall thread r)
  | (.ok (_, _), _) => inferInstanceAs (Decidable (∀ _ ∈ _, _))
  | (.error _, _) => isTrue trivial

theorem startsSyscall_iff {op : Op} (h : op.setsSyscall = true) :
    op.startsSyscall = true ↔ op.marksOther = false := by
  cases op with
  | setStack thread stackId isSyscall => exact ⟨nofun, nofun⟩
  | setNoStack thread => exact ⟨nofun, nofun⟩
  | startSystemCall thread syscall => exact ⟨fun _ => rfl, fun _ => rfl⟩
  | endSytemCall thread => exact ⟨nofun, nofun⟩
  | setTimestamp _ | setStackNames _ _ | setLastSystemCallStack _ _
  | setLastSystemCallStackNames _ _ | terminate | cleanup _ => cases h

/-- The entry that is found is marked and long. -/
theorem isLongSyscall_of_syscallToResolve {entries : List StackWrapper}
    {found : ℕ × StackWrapper} (h : syscallToResolve entries = some found) :
    found.2.isLongSyscall = true := by
  obtain ⟨i, hi, hpair⟩ := Option.bind_eq_some_iff.mp h
  obtain ⟨e, he, rfl⟩ := Option.map_eq_some_iff.mp hpair
  obtain ⟨j, hj, rfl⟩ := Option.map_eq_some_iff.mp (Option.filter_eq_some_iff.mp hi).1
  obtain ⟨hlt, hlong, -⟩ := List.findIdx?_eq_some_iff_getElem.mp hj
  rw [List.length_take, List.length_reverse] at hlt
  rw [List.getElem_take, List.getElem_reverse] at hlong
  rw [List.getElem?_eq_getElem (by omega)] at he
  rw [← Option.some.inj he]
  exact hlong

/-! ### The stacks at the instants -/

/-- An entry in the place of one with the same times. -/
theorem entryAt_set {entries : List StackWrapper} (h : InOrder entries) {i : ℕ}
    {e e' : StackWrapper} (he : entries[i]? = some e) (htimes : e'.times = e.times) (t : ℕ) :
    entryAt t (entries.set i e') =
      if e.startTs ≤ t ∧ t < e.endTs then some e' else entryAt t entries := by
  obtain ⟨hstart, hend⟩ := Prod.mk.inj htimes
  induction entries generalizing i with
  | nil => cases he
  | cons head rest ih =>
      have hrest : InOrder rest := h.drop 1
      cases i with
      | zero =>
          obtain rfl := Option.some.inj he
          rw [List.set_cons_zero, entryAt, elementAt_cons, hstart, hend]
          split
          · rfl
          · next hout => rw [entryAt, elementAt_cons, if_neg hout]
      | succ i =>
          rw [List.set_cons_succ, entryAt, elementAt_cons, entryAt, elementAt_cons]
          have hnext := ih hrest he
          split
          · next hin =>
              -- the instant is in an entry before the one that changes
              have hle : head.endTs ≤ e.startTs := by
                obtain ⟨lo, hi, htiles⟩ := inOrder_iff_tiles.mp h
                exact (List.pairwise_cons.mp htiles.ordered.pairwise).1 e (List.mem_of_getElem? he)
              rw [if_neg (by omega)]
          · exact hnext

theorem exists_noted {entries : List StackWrapper} {records : List Recorded}
    (h : List.Forall₂ Noted entries records) {i : ℕ} {e : StackWrapper}
    (he : entries[i]? = some e) : ∃ r, records[i]? = some r ∧ Noted e r := by
  induction h generalizing i with
  | nil => cases he
  | @cons head r entries records hhead _ ih =>
      cases i with
      | zero =>
          obtain rfl := Option.some.inj he
          exact ⟨r, rfl, hhead⟩
      | succ i => exact ih he

/-- The entry that is found gets its stack. -/
theorem rewrites_found {b : StacksBuilder} {records : List Recorded} {db mid db' : Database}
    {thread : ℕ} {stackId newId : StackId} {found : ℕ × StackWrapper} {step : Stack}
    (horder : InOrder (b.stacksOf thread))
    (hnoted : List.Forall₂ Noted (b.stacksOf thread) records)
    (hfound : syscallToResolve (b.stacksOf thread) = some found)
    (hother : (records[found.1]?).all (fun r => !r.op.marksOther) = true)
    (hstep : (Db.getStack found.2.stackId).runOn db = (.ok step, mid))
    (hnew : (addStack ⟨step.function, stackId⟩).runOn mid = (.ok newId, db')) :
    Rewrites b (b.updateThread thread ((b.stacksOf thread).set found.1
      { found.2 with stackId := newId, isResolved := true })) records db db' thread stackId
      found.1 found.2 := by
  have hentry := getElem?_of_syscallToResolve hfound
  have hlong := isLongSyscall_of_syscallToResolve hfound
  have hproper := horder.proper found.2 (List.mem_of_getElem? hentry)
  rw [StackWrapper.isLongSyscall, Bool.and_eq_true, decide_eq_true_eq, subU64_of_le hproper]
    at hlong
  obtain ⟨r, hr, hnote⟩ := exists_noted hnoted hentry
  rw [hr] at hother
  have htimes : ((b.stacksOf thread).set found.1
        { found.2 with stackId := newId, isResolved := true }).map StackWrapper.times =
      (b.stacksOf thread).map StackWrapper.times := map_set_eq hentry rfl
  have horder' := horder.of_times htimes
  have hentryAt := entryAt_set horder hentry
    (show StackWrapper.times { found.2 with stackId := newId, isResolved := true } =
      found.2.times from rfl)
  -- the entry itself, in the place of which the new one is put
  have hself := entryAt_set horder hentry (show found.2.times = found.2.times from rfl)
  have hset : (b.stacksOf thread).set found.1 found.2 = b.stacksOf thread := by
    obtain ⟨hlt, hget⟩ := List.getElem?_eq_some_iff.mp hentry
    rw [← hget, List.set_getElem_self]
  rw [hset] at hself
  refine ⟨hentry, ⟨r, hr, ?_, ?_⟩, by omega, ⟨step, mid, newId, hstep, hnew, rfl, ?_⟩, ?_, ?_,
    ?_, ?_⟩
  · exact (startsSyscall_iff (hnote.syscall hlong.1)).mpr (by simpa using hother)
  · rw [hnote.rewritten]
    exact isResolved_of_syscallToResolve hfound
  · intro t hstart hend
    constructor
    · rw [StacksBuilder.getStack_eq horder, hself, if_pos ⟨hstart, hend⟩]
      rfl
    · rw [StacksBuilder.getStack_eq (by rwa [StacksBuilder.stacksOf_updateThread]),
        StacksBuilder.stacksOf_updateThread, hentryAt, if_pos ⟨hstart, hend⟩]
      rfl
  · intro other hne
    exact b.updateThread_of_ne hne _
  · intro j hne
    rw [StacksBuilder.stacksOf_updateThread, List.getElem?_set_ne (Ne.symm hne)]
  · rw [StacksBuilder.stacksOf_updateThread, htimes]
  · intro t hout
    rw [StacksBuilder.getStack_eq (by rwa [StacksBuilder.stacksOf_updateThread]),
      StacksBuilder.stacksOf_updateThread, hentryAt, if_neg hout, StacksBuilder.getStack_eq horder]

theorem runOn_resolveSyscall (b : StacksBuilder) (thread : ℕ) {db mid db' : Database}
    {stackId newId : StackId} {found : ℕ × StackWrapper} {step : Stack}
    (hstep : (Db.getStack found.2.stackId).runOn db = (.ok step, mid))
    (hnew : (addStack ⟨step.function, stackId⟩).runOn mid = (.ok newId, db')) :
    (resolveSyscall b thread stackId found).runOn db =
      (.ok (b.updateThread thread ((b.stacksOf thread).set found.1
        { found.2 with stackId := newId, isResolved := true })), db') := by
  rw [resolveSyscall, DbM.runOn_bind_ok hstep]
  exact DbM.runOn_map_eq_ok.mpr ⟨newId, hnew, rfl⟩

/-- The entry that was found has changed, so it is the one that may change. -/
theorem all_of_rewrites {b : StacksBuilder} {records : List Recorded} {db db' : Database}
    {thread : ℕ} {stackId newId : StackId} {found : ℕ × StackWrapper}
    (hnoted : List.Forall₂ Noted (b.stacksOf thread) records)
    (hfound : syscallToResolve (b.stacksOf thread) = some found)
    (h : b.updateThread thread ((b.stacksOf thread).set found.1
          { found.2 with stackId := newId, isResolved := true }) = b ∨
      ∃ i e, Rewrites b (b.updateThread thread ((b.stacksOf thread).set found.1
        { found.2 with stackId := newId, isResolved := true })) records db db' thread stackId i e) :
    (records[found.1]?).all (fun r => !r.op.marksOther) = true := by
  have hentry := getElem?_of_syscallToResolve hfound
  have hresolved := isResolved_of_syscallToResolve hfound
  have hchanged := List.getElem?_set_self (a := { found.2 with
    stackId := newId, isResolved := true }) (List.getElem?_eq_some_iff.mp hentry).1
  rcases h with hsame | ⟨i, e, hrewrites⟩
  · rw [← StacksBuilder.stacksOf_updateThread b thread
      ((b.stacksOf thread).set found.1 _), hsame, hentry] at hchanged
    rw [Option.some.inj hchanged] at hresolved
    cases hresolved
  · obtain rfl : found.1 = i := by
      by_contra hne
      have hrest := hrewrites.rest found.1 hne
      rw [StacksBuilder.stacksOf_updateThread, hchanged, hentry] at hrest
      rw [← Option.some.inj hrest] at hresolved
      cases hresolved
    obtain ⟨r, hr, hstarts, -⟩ := hrewrites.syscall
    obtain ⟨r', hr', hnote⟩ := exists_noted hnoted hentry
    obtain rfl : r' = r := Option.some.inj (hr'.symm.trans hr)
    have hlong := isLongSyscall_of_syscallToResolve hfound
    rw [StackWrapper.isLongSyscall, Bool.and_eq_true] at hlong
    rw [hr, Option.all_some, (startsSyscall_iff (hnote.syscall hlong.1)).mp hstarts]
    rfl

theorem rewritesSyscalls_iff_of_noted {b : StacksBuilder} {records : ℕ → List Recorded}
    {db : Database} {thread : ℕ} (stackId : StackId) (horder : InOrder (b.stacksOf thread))
    (hnoted : List.Forall₂ Noted (b.stacksOf thread) (records thread)) :
    RewritesSyscalls thread stackId (.ok (b, records), db) ↔
      FindsSyscall thread (.ok (b, records), db) := by
  simp only [RewritesSyscalls, FindsSyscall, setLastSystemCallStack_eq]
  cases hfound : syscallToResolve (b.stacksOf thread) with
  | none =>
      refine ⟨fun _ _ h => (by cases h), fun _ b' db' hrun => .inl ?_⟩
      cases hrun
      rfl
  | some found =>
      simp only [Option.elim_some, Option.mem_def, Option.some.injEq, forall_eq']
      rcases hstep : (Db.getStack found.2.stackId).runOn db with ⟨e | step, mid⟩
      · -- the call throws, and nothing is changed
        have hunknown : knowsStack db found.2.stackId = false := by rw [knowsStack, hstep]
        refine ⟨fun _ hknown => absurd (hunknown.symm.trans hknown) nofun, fun _ b' db' hrun => ?_⟩
        rw [resolveSyscall, DbM.runOn_bind_error hstep] at hrun
        cases hrun
      · have hknown : knowsStack db found.2.stackId = true := by rw [knowsStack, hstep]
        obtain ⟨newId, db', hnew⟩ := addStack_returns ⟨step.function, stackId⟩ mid
        have hrun := runOn_resolveSyscall b thread hstep hnew
        constructor
        · exact fun h _ => all_of_rewrites hnoted hfound (h _ _ hrun)
        · intro h b' db'' hrun'
          rw [hrun] at hrun'
          cases hrun'
          exact .inr ⟨found.1, found.2, rewrites_found horder hnoted hfound (h hknown) hstep hnew⟩

theorem recorded_inOrder {db db' : Database} {ops : List Op} {b : StacksBuilder}
    {records : ℕ → List Recorded} (hclock : NonDecreasing ops)
    (h : recorded db ops = (.ok (b, records), db')) (thread : ℕ) : InOrder (b.stacksOf thread) :=
  ((after_inOrder hclock (after_of_watched _ _ h)).2 thread).1

/-- In a state that is reached on a clock that does not go back, the call rewrites nothing but a
long system call that was not rewritten before, exactly if no entry that was marked by another
operation is in its place. -/
theorem rewritesSyscalls_iff (db : Database) {ops : List Op} (hclock : NonDecreasing ops)
    (thread : ℕ) (stackId : StackId) :
    RewritesSyscalls thread stackId (recorded db ops) ↔ FindsSyscall thread (recorded db ops) := by
  rcases hrun : recorded db ops with ⟨e | ⟨b, records⟩, db'⟩
  · exact Iff.rfl
  · exact rewritesSyscalls_iff_of_noted stackId (recorded_inOrder hclock hrun thread)
      (recorded_noted hrun thread)

/-- A long system call, and the stack of the thread behind it. -/
def longSyscall : List Op :=
  [.setStack 1 7 false, .setTimestamp 10, .startSystemCall 1 (str "read"), .setTimestamp 200010,
    .endSytemCall 1]

theorem rewritesSyscalls_iff_longSyscall :
    RewritesSyscalls 1 5 (recorded {} longSyscall) ↔ FindsSyscall 1 (recorded {} longSyscall) :=
  rewritesSyscalls_iff {} (by decide) 1 5

/-- A short system call of a thread without a stack, which is in 'No Stack' for a long time
after it. -/
def longNoStack : List Op :=
  [.startSystemCall 1 (str "read"), .setTimestamp 10, .endSytemCall 1, .setTimestamp 200010,
    .setStack 1 7 false]

/-- 'No Stack' is rewritten. -/
theorem not_rewritesSyscalls_longNoStack :
    NonDecreasing longNoStack ∧ ¬ RewritesSyscalls 1 7 (recorded {} longNoStack) := by
  refine ⟨by decide, fun h => ?_⟩
  have hfinds : ¬ FindsSyscall 1 (recorded {} longNoStack) := by decide +kernel
  have hreturns : (recorded {} longNoStack).1.isOk = true := by decide +kernel
  rcases hrun : recorded {} longNoStack with ⟨e | ⟨b, records⟩, db⟩
  · rw [hrun] at hreturns
    cases hreturns
  · rw [hrun] at h hfinds
    exact hfinds ((rewritesSyscalls_iff_of_noted 7 (recorded_inOrder (by decide) hrun 1)
      (recorded_noted hrun 1)).mp h)

end TibeeCompare.Stacks
