import TibeeCompare.Build.SavedExecutions
import TibeeCompare.Db.StoredKeys
import TibeeCompare.Report.Documents

/-!
Builds one after the other on a database, and a report at the end.

A build opens the database that the builds before it left. No matter how many there were, the
report of a name describes executions that one of them handed over.
-/

namespace TibeeCompare.Build

open BuildBlocks Db Executions Report StateBlocks

structure Invocation where
  setting : Setting
  args : Arguments
  notifications : List Notification

/-- A database, and the executions that were handed over to it. -/
structure Session where
  database : Database := {}
  executions : List Execution := []

namespace Session

/-- A program that went wrong is not followed by another one. -/
def build (session : Session) (invocation : Invocation) : Except Crash Session :=
  let build := TibeeBuild.run invocation.setting invocation.args session.database
    invocation.notifications
  match build.buildBlock.components with
  | .error crash => .error crash
  | .ok services => .ok
      { database := services.database
        executions := session.executions ++ handed build.buildBlock.calls }

/-- The database has the executions that were handed over. -/
def Sound (session : Session) : Prop :=
  ∃ history, Stored session.executions history session.database

theorem Sound.build {session session' : Session} {invocation : Invocation} (h : session.Sound)
    (hrun : session.build invocation = .ok session') : session'.Sound := by
  obtain ⟨history, hstored⟩ := h
  have htells := tells_run invocation.setting invocation.args hstored invocation.notifications
  unfold Session.build at hrun
  dsimp only at hrun
  generalize (TibeeBuild.run invocation.setting invocation.args session.database
    invocation.notifications).buildBlock = buildBlock at htells hrun
  generalize buildBlock.components = components at htells hrun
  cases htells with
  | served hstored' hstacks =>
      cases hrun
      exact ⟨_, hstored'⟩
  | crashed hsaved hstored' hfault => cases hrun

theorem sound_foldlM {invocations : List Invocation} {session : Session}
    (hrun : invocations.foldlM Session.build {} = .ok session) : session.Sound :=
  Runs.run_invariant (fun _ _ _ _ hsound hbuild => hsound.build hbuild) ⟨[], stored_empty⟩ hrun

end Session

/-- No stack has more samples than a counter holds. -/
def CountsSamples (e : Execution) : Prop :=
  (e.samples.entries.map fun entry => entry.2.toNat).sum < 2 ^ 64

instance (e : Execution) : Decidable (CountsSamples e) := inferInstanceAs (Decidable (_ < _))

theorem Stored.isReportable {executions : List Execution} {history : List Db.Op}
    {database : Database} (h : Stored executions history database)
    (hfits : (tables history).Fits) {e : Execution} (he : e ∈ (tables history).executions)
    (hcounts : CountsSamples e) : IsReportable (tables history) e := by
  rw [executions_tables, List.mem_reverse, h.added] at he
  exact ⟨h.samples e he hfits, hcounts⟩

/-- After any builds that left room for more identifiers and counted samples without an overflow,
a report of a name is written in full, unless its enumeration divides by zero: it is the text of
a tree that describes the executions that were read, and these were all handed over, under this
name, by one of the builds. Some are read when one was handed over. -/
theorem report_describes_builds {invocations : List Invocation} {session : Session}
    (hrun : invocations.foldlM Session.build {} = .ok session) (hroom : session.database.HasRoom)
    {name : Bytes} (hcounts : ∀ e ∈ session.executions, e.name = name → CountsSamples e)
    (sizes : ApproximateSizes) {rounds : ℕ} (hrounds : 2 ^ 64 ≤ rounds) :
    let enumeration := (enumerateExecutionsDesired sizes name kNumDesiredExecutions).runOn
      (Db.reopen session.database)
    ((∃ e ∈ session.executions, e.name = name) →
        ∃ executions db, executions ≠ [] ∧ enumeration = (.ok (some executions), db)) ∧
      ∀ executions db, enumeration = (.ok (some executions), db) →
        (∀ e ∈ executions, e ∈ session.executions ∧ e.name = name) ∧
          ∃ history, Stored session.executions history session.database ∧
            Reports (Db.reopen session.database) sizes rounds name
              ((tables history).addName name) executions := by
  obtain ⟨history, hstored⟩ := Session.sound_foldlM hrun
  rw [hstored.replays.after] at hroom
  have hfits := fits_of_hasRoom hroom name
  have hfits' := hfits.of_addName
  have hdb := (hstored.replays.represents hfits').reopen
  have hmem : ∀ e, e ∈ (tables history).executions ↔ e ∈ session.executions := fun e => by
    rw [executions_tables, List.mem_reverse, hstored.added]
  have hreportable : ∀ e ∈ (tables history).executions, e.name = name →
      IsReportable (tables history) e :=
    fun e he hname => hstored.isReportable hfits' he (hcounts e ((hmem e).mp he) hname)
  refine ⟨?_, fun executions db hread => ⟨fun e he => ?_, history, hstored, ?_⟩⟩
  · rintro ⟨e, he, hname⟩
    exact enumerateExecutionsDesired_returns hfits hdb sizes _ ((hmem e).mpr he) hname
  · exact ((enumerateExecutionsDesired_reads hfits hdb hread).2 e he).imp_left (hmem e).mp
  · exact reports_of_reads (hstored.replays.wellFormed hfits') hfits hdb hreportable hrounds hread

/-- An execution of a thread that runs, with a sample of its stack at both ends. -/
def oneSave : List Notification :=
  [.timestamp 1, .critical (.threadStatus 7 (some .runUsermode)),
    .stateAttribute (pathKey 7 "cur_cpu") (some 0),
    .profiler 7 (.onCpuSample [some (str "main")]), .executionBegin 7 [], .timestamp 9000000000,
    .profiler 7 (.onCpuSample [some (str "work")]),
    .critical (.threadStatus 7 (some .waitForCpu)), .executionEnd 7 [] 9000000000]

/-- Two builds of the same notifications under different names. -/
def twoBuilds : List Invocation :=
  [⟨pathSetting, { name := str "before" }, oneSave⟩,
    ⟨pathSetting, { name := str "after" }, oneSave⟩]

theorem report_describes_builds_twoBuilds :
    ∃ session executions history,
      twoBuilds.foldlM Session.build {} = .ok session ∧ executions ≠ [] ∧
      (∀ e ∈ executions, e ∈ session.executions ∧ e.name = str "before") ∧
      Reports (Db.reopen session.database) (fun _ _ _ => 0) (2 ^ 64) (str "before")
        ((tables history).addName (str "before")) executions := by
  have hview : (twoBuilds.foldlM Session.build {}).toOption.map (fun session =>
      decide (session.database.HasRoom ∧ (∀ e ∈ session.executions, CountsSamples e) ∧
        ∃ e ∈ session.executions, e.name = str "before")) = some true := by
    decide +kernel
  obtain ⟨session, hsession, hholds⟩ := Option.map_eq_some_iff.mp hview
  obtain ⟨hroom, hcounts, hhanded⟩ := of_decide_eq_true hholds
  have hrun := ok_of_toOption hsession
  obtain ⟨hreturns, hdescribes⟩ := report_describes_builds hrun hroom
    (fun e he _ => hcounts e he) (fun _ _ _ => 0) le_rfl
  obtain ⟨executions, db, hsome, hread⟩ := hreturns hhanded
  obtain ⟨hmem, history, -, hreports⟩ := hdescribes executions db hread
  exact ⟨session, executions, history, hrun, hsome, hmem, hreports⟩

end TibeeCompare.Build
