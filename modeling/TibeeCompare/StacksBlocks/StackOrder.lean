import TibeeCompare.StacksBlocks.ProfilerBlock
import TibeeCompare.Stacks.EntryOrder

/-!
The order of the stacks that the profiler events build.

All handlers but one write at the current time, which is not before the start of
any entry. `OnSyscallLatency` writes at the start of a system call that is already
over: it keeps the order exactly if the thread's last entry is not younger than
that, or is the entry of such a system call.
-/

namespace TibeeCompare.StacksBlocks

open Db Stacks StacksBuilder

/-- The entries of every thread are in order. -/
def AllInOrder (b : StacksBuilder) : Prop := ∀ thread, InOrder (b.stacksOf thread)

/-- The identifier that `OnSyscallLatency` gives to its system call. -/
def latencyStack (db : Database) : Except FatalError StackId :=
  ((getStackIdentifier [str "sys:" ++ str "syscall"]).runOn db).1

/-- The last entry of the thread does not start after `start`, or it is a system
call of latency events. -/
def ReachesBack (b : StacksBuilder) (db : Database) (tid start : ℕ) : Prop :=
  StartsBy start (b.stacksOf tid) ∨
    ∃ back, (b.stacksOf tid).getLast? = some back ∧ back.isSyscall = true ∧
      latencyStack db = .ok back.stackId

/-- The system call of a latency event does not start before the last entry of the
thread. -/
def KeepsOrder (b : StacksBuilder) (db : Database) : Step → Prop
  | .event ts tid (.syscallLatency duration) => ReachesBack b db tid (ts - duration)
  | _ => True

/-! ### The handlers -/

/-- All handlers but the one of latency events write at the current time. -/
theorem onEvent_ok {b b' : StacksBuilder} {ts tid : ℕ} {e : ProfilerEvent} {db db' : Database}
    (he : ∀ duration, e ≠ .syscallLatency duration)
    (h : (onEvent b ts tid e).runOn db = (.ok b', db')) :
    ∃ entries, b' = b.updateThread tid entries ∧ Effect b.ts (b.stacksOf tid) entries := by
  cases e with
  | onCpuSample symbols =>
      obtain ⟨stackId, -, rfl⟩ := DbM.runOn_map_eq_ok.mp h
      exact ⟨_, rfl, .set stackId false⟩
  | offCpuSample symbols =>
      obtain ⟨stackId, mid, -, h⟩ := DbM.runOn_bind_eq_ok.mp h
      obtain ⟨entries, rfl, htimes⟩ := setLastSystemCallStack_ok h
      exact ⟨entries, rfl, .sameTimes htimes⟩
  | syscallEntry name =>
      obtain ⟨stackId, -, rfl⟩ := DbM.runOn_map_eq_ok.mp h
      exact ⟨_, rfl, .set stackId true⟩
  | syscallExit =>
      rcases endSytemCall_ok h with ⟨rfl, -⟩ | ⟨back, stackId, isSyscall, -, -, rfl⟩
      · exact ⟨_, (updateThread_self b' tid).symm, .refl _ _⟩
      · exact ⟨_, rfl, .set stackId isSyscall⟩
  | syscallLatency duration => exact absurd rfl (he duration)

/-- The two writes of a latency event. The second one comes at the end of the system call and
is left out when the last entry is not one. -/
theorem onSyscallLatency_writes {b b' : StacksBuilder} {ts tid duration : ℕ} {db db' : Database}
    (hduration : duration ≤ ts)
    (h : (onSyscallLatency b ts tid duration).runOn db = (.ok b', db')) :
    ∃ stackId opened, latencyStack db = .ok stackId ∧
      setEntry (ts - duration) stackId true (b.stacksOf tid) = opened ∧
      ((b' = (b.setTimestamp ts).updateThread tid opened ∧
          ∀ back, opened.getLast? = some back → back.isSyscall = false) ∨
        ∃ back stackId' isSyscall, opened.getLast? = some back ∧ back.isSyscall = true ∧
          b' = (b.setTimestamp ts).updateThread tid (setEntry ts stackId' isSyscall opened)) := by
  obtain ⟨mid, dbMid, hstart, hend⟩ := DbM.runOn_bind_eq_ok.mp h
  obtain ⟨stackId, hid, rfl⟩ := DbM.runOn_map_eq_ok.mp hstart
  rw [subU64_of_le hduration] at hend
  generalize hopen : setEntry (ts - duration) stackId true (b.stacksOf tid) = opened at *
  refine ⟨stackId, opened, congrArg Prod.fst hid, hopen, ?_⟩
  have hmid : ((b.setTimestamp (ts - duration)).setStack tid stackId true).setTimestamp ts =
      (b.setTimestamp ts).updateThread tid opened := by
    rw [← hopen]
    rfl
  rw [hmid] at hend
  have hlast := endSytemCall_ok hend
  rw [stacksOf_updateThread] at hlast
  refine hlast.imp_right ?_
  rintro ⟨back, stackId', isSyscall, hback, hsyscall, rfl⟩
  refine ⟨back, stackId', isSyscall, hback, hsyscall, ?_⟩
  rw [setStack, stacksOf_updateThread, updateThread_updateThread]
  rfl

/-- A latency event with its two writes. The entry that the first one ends may be
ended again by the second one; otherwise it stays as the first one left it. -/
theorem onSyscallLatency_ok {b b' : StacksBuilder} {ts tid duration : ℕ} {db db' : Database}
    (hduration : duration ≤ ts) (horder : InOrder (b.stacksOf tid))
    (hts : StartsBy ts (b.stacksOf tid))
    (h : (onSyscallLatency b ts tid duration).runOn db = (.ok b', db')) :
    ∃ entries, b' = (b.setTimestamp ts).updateThread tid entries ∧ StartsBy ts entries ∧
      (InOrder entries ↔ ReachesBack b db tid (ts - duration)) := by
  obtain ⟨stackId, opened, hlatency, hopen, hlast⟩ := onSyscallLatency_writes hduration h
  have hle : ts - duration ≤ ts := Nat.sub_le _ _
  have hopened : StartsBy ts opened := hopen ▸ startsBy_setEntry hle hts
  rcases setEntry_cases (ts - duration) stackId true (b.stacksOf tid) with
    ⟨back, hback, hsame, hopened'⟩ | ⟨hother, hopened'⟩
  · -- the last entry is the one of the system call
    rw [hopen] at hopened'
    rcases hlast with ⟨rfl, hmode⟩ | ⟨last, stackId', isSyscall', hlast, hsyscall, rfl⟩
    · refine ⟨opened, rfl, hopened, ?_⟩
      have hmode' : back.isSyscall = false := by
        have := hmode { back with endTs := ts - duration } (by simp [hopened', hback])
        exact this
      rw [hopened', inOrder_closeBack horder]
      refine ⟨Or.inl, ?_⟩
      rintro (hstarts | ⟨back', hback', hsyscall, -⟩)
      · exact hstarts
      · rw [hback] at hback'
        obtain rfl := Option.some.inj hback'
        rw [hmode'] at hsyscall
        cases hsyscall
    · refine ⟨_, rfl, startsBy_setEntry le_rfl hopened, ?_⟩
      have hsyscall' : back.isSyscall = true := by
        rw [hopened', getLast?_closeBack, hback] at hlast
        obtain rfl := Option.some.inj hlast
        exact hsyscall
      rw [inOrder_setEntry, hopened', closeBack_closeBack, inOrder_closeBack horder]
      exact ⟨fun _ => .inr ⟨back, hback, hsyscall', hsame ▸ hlatency⟩, fun _ => hts⟩
  · -- a new entry is behind the last one, which keeps its new end
    rw [hopen] at hopened'
    have hcond : ReachesBack b db tid (ts - duration) ↔
        StartsBy (ts - duration) (b.stacksOf tid) := by
      refine ⟨?_, Or.inl⟩
      rintro (hstarts | ⟨back, hback, -, hid'⟩)
      · exact hstarts
      · rw [hlatency] at hid'
        exact absurd (Except.ok.inj hid').symm (hother back hback)
    rcases hlast with ⟨-, hmode⟩ | ⟨last, stackId', isSyscall', -, -, rfl⟩
    · have := hmode ⟨stackId, ts - duration, ts - duration, true, false⟩ (by simp [hopened'])
      cases this
    · refine ⟨_, rfl, startsBy_setEntry le_rfl hopened, ?_⟩
      rw [inOrder_setEntry, hopened', closeBack_concat, inOrder_append_singleton,
        inOrder_closeBack horder, hcond]
      refine ⟨fun h => h.1, fun h => ⟨h, hle, ?_⟩⟩
      intro back hback
      rw [getLast?_closeBack] at hback
      obtain ⟨last, -, rfl⟩ := Option.map_eq_some_iff.mp hback
      rfl

/-! ### Runs -/

/-- What holds between events: entries are in order, and none starts in the future. -/
def Steady (b : StacksBuilder) : Prop :=
  AllInOrder b ∧ ∀ thread, StartsBy b.ts (b.stacksOf thread)

theorem Steady.setTimestamp {b : StacksBuilder} (h : Steady b) {ts : ℕ} (hts : b.ts ≤ ts) :
    Steady (b.setTimestamp ts) :=
  ⟨h.1, fun thread => (h.2 thread).mono hts⟩

/-- With another vector for one thread, the order depends on this vector. -/
theorem Steady.updateThread {b : StacksBuilder} (h : Steady b) {tid : ℕ}
    {entries : List StackWrapper} (hts : StartsBy b.ts entries) :
    (∀ thread, StartsBy b.ts ((b.updateThread tid entries).stacksOf thread)) ∧
      (AllInOrder (b.updateThread tid entries) ↔ InOrder entries) := by
  refine ⟨?_, ?_, ?_⟩
  · intro thread
    by_cases hthread : thread = tid
    · subst hthread
      rwa [stacksOf_updateThread]
    · rw [updateThread_of_ne b hthread]
      exact h.2 thread
  · intro hall
    simpa using hall tid
  · intro hentries thread
    by_cases hthread : thread = tid
    · subst hthread
      rwa [stacksOf_updateThread]
    · rw [updateThread_of_ne b hthread]
      exact h.1 thread

theorem Step.run_keeps {b b' : StacksBuilder} {db db' : Database} {s : Step} (h : Steady b)
    (horder : s.InOrder b) (hrun : (s.run b).runOn db = (.ok b', db')) :
    (∀ thread, StartsBy b'.ts (b'.stacksOf thread)) ∧ (AllInOrder b' ↔ KeepsOrder b db s) := by
  cases s with
  | event ts tid e =>
      by_cases he : ∃ duration, e = .syscallLatency duration
      · obtain ⟨duration, rfl⟩ := he
        have hclock := h.setTimestamp horder.1
        obtain ⟨entries, rfl, hts, hiff⟩ :=
          onSyscallLatency_ok horder.2 (hclock.1 tid) (hclock.2 tid) hrun
        obtain ⟨hstarts, hall⟩ := hclock.updateThread hts
        exact ⟨hstarts, hall.trans hiff⟩
      · have hne : ∀ duration, e ≠ .syscallLatency duration := fun d hd => he ⟨d, hd⟩
        have hts : b.ts ≤ ts := by
          cases e with
          | syscallLatency duration => exact absurd rfl (hne duration)
          | _ => exact horder
        have hclock := h.setTimestamp hts
        obtain ⟨entries, rfl, heffect⟩ := onEvent_ok hne hrun
        obtain ⟨hentries, hstarts⟩ := heffect.inOrder (hclock.1 tid) (hclock.2 tid)
        obtain ⟨hstarts, hall⟩ := hclock.updateThread hstarts
        refine ⟨hstarts, fun _ => ?_, fun _ => hall.mpr hentries⟩
        cases e with
        | syscallLatency duration => exact absurd rfl (hne duration)
        | _ => trivial
  | timestamp ts =>
      cases hrun
      have hclock := h.setTimestamp horder
      exact ⟨hclock.2, fun _ => trivial, fun _ => hclock.1⟩
  | terminate =>
      cases hrun
      exact ⟨fun thread => startsBy_closeBack.mpr (h.2 thread), fun _ => trivial,
        fun _ thread => (inOrder_closeBack (h.1 thread)).mpr (h.2 thread)⟩
  | cleanup ts =>
      cases hrun
      exact ⟨fun thread => (h.2 thread).drop _, fun _ => trivial,
        fun _ thread => (h.1 thread).drop _⟩

theorem steady_of_keepsOrder {b : StacksBuilder} {db : Database} (h : Reachable KeepsOrder b db) :
    Steady b := by
  induction h with
  | initial db =>
      exact ⟨fun _ => ⟨List.Pairwise.nil, fun _ h => absurd h List.not_mem_nil, List.IsChain.nil⟩,
        fun _ _ h => (by cases h)⟩
  | step hreach horder hallowed hrun ih =>
      obtain ⟨hstarts, hall⟩ := Step.run_keeps ih horder hrun
      exact ⟨hall.mpr hallowed, hstarts⟩

/-- While every latency event reaches back to the last entry at most, the stacks of
all threads are in order; the first one that reaches further breaks the order. -/
theorem allInOrder_iff_keepsOrder {b : StacksBuilder} {db : Database}
    (h : Reachable KeepsOrder b db) :
    AllInOrder b ∧ ∀ s b' db', s.InOrder b → (s.run b).runOn db = (.ok b', db') →
      (AllInOrder b' ↔ KeepsOrder b db s) :=
  ⟨(steady_of_keepsOrder h).1,
    fun _ _ _ horder hrun => (Step.run_keeps (steady_of_keepsOrder h) horder hrun).2⟩

/-- Thread 1 is sampled in `main` at 10. -/
def mainSampled : Step := .event 10 1 (.onCpuSample [some (str "main")])

theorem mainSampled_inOrder : mainSampled.InOrder {} := Nat.zero_le 10

/-- A system call of thread 1 is over at 12, after `duration`. -/
def syscallOver (duration : ℕ) : Step := .event 12 1 (.syscallLatency duration)

/-- The entries of thread 1 after the sample and the system call. -/
def entriesAfter (duration : ℕ) : Except FatalError (List StackWrapper) :=
  ((mainSampled.run {} >>= fun b => (syscallOver duration).run b).runOn {}).1.map
    fun b => b.stacksOf 1

theorem run_of_entriesAfter {duration : ℕ} {entries : List StackWrapper}
    (h : entriesAfter duration = .ok entries) :
    ∃ b db b' db', (mainSampled.run {}).runOn {} = (.ok b, db) ∧ b.ts = 10 ∧
      b.stacksOf 1 = [⟨1, 10, 10, false, false⟩] ∧
      ((syscallOver duration).run b).runOn db = (.ok b', db') ∧ b'.stacksOf 1 = entries := by
  have hfirst : ((mainSampled.run {}).runOn {}).1.map (fun b => (b.ts, b.stacksOf 1)) =
      .ok (10, [⟨1, 10, 10, false, false⟩]) := by decide
  obtain ⟨b, db, hrun, hb⟩ := DbM.exists_of_view hfirst
  obtain ⟨hts, hstacks⟩ := Prod.mk.inj hb
  rw [entriesAfter, DbM.runOn_bind_ok hrun] at h
  obtain ⟨b', db', hrun', hb'⟩ := DbM.exists_of_view h
  exact ⟨b, db, b', db', hrun, hts, hstacks, hrun', hb'⟩

/-- A system call that starts after the sample. -/
theorem allInOrder_iff_keepsOrder_syscallOver :
    ∃ b db, b.stacksOf 1 = [⟨1, 10, 11, false, false⟩, ⟨2, 11, 12, true, false⟩,
        ⟨1, 12, 12, false, false⟩] ∧
      AllInOrder b ∧ ∀ s b' db', s.InOrder b → (s.run b).runOn db = (.ok b', db') →
        (AllInOrder b' ↔ KeepsOrder b db s) := by
  obtain ⟨b, db, b', db', hrun, hts, hstacks, hrun', hentries⟩ :=
    run_of_entriesAfter (show entriesAfter 1 = .ok [⟨1, 10, 11, false, false⟩,
      ⟨2, 11, 12, true, false⟩, ⟨1, 12, 12, false, false⟩] by decide)
  have hkeeps : KeepsOrder b db (syscallOver 1) := by
    refine .inl fun back hback => ?_
    rw [hstacks] at hback
    obtain rfl := Option.some.inj hback
    decide
  have hfirst : Reachable KeepsOrder b db :=
    (Reachable.initial {}).step mainSampled_inOrder trivial hrun
  have horder : (syscallOver 1).InOrder b := ⟨hts ▸ by decide, by decide⟩
  have hsecond := hfirst.step horder hkeeps hrun'
  exact ⟨b', db', hentries, allInOrder_iff_keepsOrder hsecond⟩

/-- A system call that started before the sample: the entry of the sample ends at
7, before it starts. -/
theorem not_allInOrder_syscallOver :
    ∃ b db, Reachable (fun _ _ _ => True) b db ∧ ¬ AllInOrder b := by
  obtain ⟨b, db, b', db', hrun, hts, -, hrun', hentries⟩ :=
    run_of_entriesAfter (show entriesAfter 5 = .ok [⟨1, 10, 7, false, false⟩,
      ⟨2, 7, 12, true, false⟩, ⟨1, 12, 12, false, false⟩] by decide)
  have hfirst : Reachable (fun _ _ _ => True) b db :=
    (Reachable.initial {}).step mainSampled_inOrder trivial hrun
  have horder : (syscallOver 5).InOrder b := ⟨hts ▸ by decide, by decide⟩
  have hsecond := hfirst.step horder trivial hrun'
  refine ⟨b', db', hsecond, fun hall => ?_⟩
  have hproper := (hall 1).proper ⟨1, 10, 7, false, false⟩ (by rw [hentries]; decide)
  exact absurd hproper (by decide)

end TibeeCompare.StacksBlocks
