import TibeeCompare.Build.HistoryCleanups
import TibeeCompare.CriticalBlocks.DiskIntervals
import TibeeCompare.Executions.DiskSplit

/-!
The disk requests of a build.

`CriticalBlock` adds them, `BuildBlock` cleans them, and the extraction of stacks splits segments
over them. None of them ends before it starts, as the split expects of what it reads.
-/

namespace TibeeCompare.Build

open BuildBlocks Critical CriticalBlocks Disk Executions

/-- The requests are what is left of intervals that do not end before they start, nor in the
future. -/
structure DiskSound (now : UInt64) (services : Services) : Prop where
  block : services.criticalBlock.WellLaid
  graphTs : services.criticalBlock.graph.ts = services.criticalBlock.stateTs
  stateTs_le : services.criticalBlock.stateTs ≤ now.toNat
  requests : ∃ ops, services.diskRequests = Disk.after ops ∧
    ∀ e ∈ added ops, e.1.low ≤ e.1.high ∧ e.1.high ≤ now.toNat

/-- The intervals of a handler are added one after the other. -/
theorem foldl_addInterval (ops : List Disk.Op) (intervals : List (ℕ × ℕ × ℕ)) :
    intervals.foldl (fun requests (start, end_, tid) => requests.addInterval start end_ tid)
        (Disk.after ops) =
      Disk.after (ops ++ intervals.map fun interval =>
        .addInterval interval.1 interval.2.1 interval.2.2) := by
  rw [Disk.after, Disk.after, List.foldl_append, List.foldl_map]
  rfl

theorem mem_added_intervals {ops : List Disk.Op} {intervals : List (ℕ × ℕ × ℕ)}
    {e : Containers.Interval × ℕ} (h : e ∈ added (ops ++ intervals.map fun interval =>
      Disk.Op.addInterval interval.1 interval.2.1 interval.2.2)) :
    e ∈ added ops ∨ ∃ interval ∈ intervals, e = (⟨interval.1, interval.2.1⟩, interval.2.2) := by
  rw [added_append] at h
  refine (List.mem_append.mp h).imp_right fun hnew => ?_
  obtain ⟨op, hop, he⟩ := List.mem_filterMap.mp hnew
  obtain ⟨interval, hinterval, rfl⟩ := List.mem_map.mp hop
  exact ⟨interval, hinterval, (Option.some.inj he).symm⟩

section DiskSound

variable {setting : Setting} {now : UInt64} {services services' : Services}

theorem DiskSound.onCriticalEvent (h : DiskSound now services) {event : CriticalBlocks.Event}
    (hrun : services.onCriticalEvent setting event = .ok services') : DiskSound now services' := by
  unfold Services.onCriticalEvent at hrun
  split at hrun
  · cases hrun
  · next criticalBlock hevent =>
      cases hrun
      obtain ⟨hblock, hts⟩ := h.block.onEvent hevent
      obtain ⟨hstate, waits, hwaits, heach⟩ := CriticalBlock.onEvent_addsWaits hevent
      obtain ⟨ops, hops, hproper⟩ := h.requests
      refine ⟨hblock, hts.trans (h.graphTs.trans hstate.symm), hstate.le.trans h.stateTs_le, ?_⟩
      dsimp only
      rw [hwaits, List.drop_left, hops, foldl_addInterval]
      refine ⟨_, rfl, fun e he => ?_⟩
      rcases mem_added_intervals he with hold | ⟨interval, hinterval, rfl⟩
      · exact hproper e hold
      · obtain ⟨hend, node, hlast, hstart⟩ := heach interval hinterval
        have hlabel := CriticalGraph.label_of_getLastNodeForThread h.block.laid.owned hlast
        have hle : services.criticalBlock.graph.tsOf node ≤ services.criticalBlock.graph.ts :=
          h.block.laid.clocked.past hlabel
        dsimp only
        rw [hstart, hend, ← h.graphTs]
        exact ⟨hle, h.graphTs.le.trans h.stateTs_le⟩

theorem keptBy_diskSound (setting : Setting) : KeptBy setting DiskSound where
  setTimestamp {now ts services} h hle := by
    have hle' := UInt64.le_iff_toNat_le.mp hle
    obtain ⟨ops, hops, hproper⟩ := h.requests
    refine ⟨h.block.setTimestamp ((h.graphTs.le.trans h.stateTs_le).trans hle'), rfl, le_rfl, ops,
      hops, fun e he => ?_⟩
    exact ⟨(hproper e he).1, (hproper e he).2.trans hle'⟩
  terminate h := ⟨h.block, h.graphTs, h.stateTs_le, h.requests⟩
  cleanup {now ts services services'} h hrun := by
    unfold Services.cleanup at hrun
    split at hrun
    · cases hrun
    · next graph hclean =>
        cases hrun
        obtain ⟨hblock, hts⟩ := h.block.cleanup hclean
        obtain ⟨ops, hops, hproper⟩ := h.requests
        -- the cleanup is one more operation on the requests, and adds none
        refine ⟨hblock, hts.trans h.graphTs, h.stateTs_le, ops ++ [.cleanup ts.toNat], ?_, ?_⟩
        · dsimp only
          rw [after_append, hops]
          rfl
        · rw [added_append]
          exact fun e he => hproper e ((List.mem_append.mp he).resolve_right fun h => by cases h)
  withDatabase h database := ⟨h.block, h.graphTs, h.stateTs_le, h.requests⟩
  afterExtraction h extractor := ⟨h.block, h.graphTs, h.stateTs_le, h.requests⟩
  serve {now services services'} h {notification} hrun := by
    have hstate : ∀ stateNotification,
        services.onStateNotification setting stateNotification = .ok services' →
          DiskSound now services' := by
      intro stateNotification hrun
      unfold Services.onStateNotification at hrun
      split at hrun
      · cases hrun
      · cases hrun
        exact ⟨h.block, h.graphTs, h.stateTs_le, h.requests⟩
    cases notification with
    | critical event => exact h.onCriticalEvent hrun
    | profiler tid event =>
        unfold Notification.serve Services.onProfilerEvent at hrun
        dsimp only at hrun
        split at hrun
        · cases hrun
        · cases hrun
          exact ⟨h.block, h.graphTs, h.stateTs_le, h.requests⟩
    | stateAttribute key value => exact hstate (.state key value) hrun
    | schedSwitch event prevTid nextTid => exact hstate (.schedSwitch event prevTid nextTid) hrun
    | schedTtwu event => exact hstate (.schedTtwu event) hrun
    | ust event => exact hstate (.ust event) hrun
    | special _ | threadNames _ | timestamp _ | executionBegin _ _ | executionEnd _ _ _ =>
        cases hrun
        exact ⟨h.block, h.graphTs, h.stateTs_le, h.requests⟩

end DiskSound

/-- In every state that a build reaches, what is read of the disk requests lies in the past and
does not end before it starts. So no segment has an accident in its split over the requests,
unless they cannot divide it. -/
theorem reads_properRequests (setting : Setting) (args : Arguments) (db : Db.Database)
    {notifications : List Notification} (hclock : Ascending notifications) :
    let build := notifications.foldl (TibeeBuild.step setting (components setting) args)
      (.initial args db)
    ∀ services, build.buildBlock.components = .ok services → ∀ start end_,
      (∀ e ∈ services.diskRequests.getIntervals start end_,
        e.1.low ≤ e.1.high ∧ e.1.high ≤ build.buildBlock.executionsBuilder.ts.toNat) ∧
      ∀ tid duration, duration < U64 →
        (SplitsWell tid duration (services.diskRequests.getIntervals start end_) ↔
          Divisible tid duration (services.diskRequests.getIntervals start end_)) := by
  intro build services hrun start end_
  have hinitial : DiskSound 0 { database := Db.reopen db } :=
    ⟨CriticalBlock.wellLaid_initial, rfl, le_rfl, [], rfl, fun _ h => (by cases h)⟩
  have hsound := (keptBy_diskSound setting).foldl_step args hinitial hclock services hrun
  obtain ⟨ops, hops, hproper⟩ := hsound.requests
  rw [hops]
  have hread : ∀ e ∈ (Disk.after ops).getIntervals start end_,
      e.1.low ≤ e.1.high ∧ e.1.high ≤ build.buildBlock.executionsBuilder.ts.toNat := by
    intro e he
    have hstored := List.mem_of_mem_filter ((getIntervals_perm ops start end_).mem_iff.mp he)
    exact hproper e ((stored_sublist ops).mem hstored)
  exact ⟨hread, fun tid duration hduration =>
    splitsWell_iff_of_proper hduration fun e he => (hread e he).1⟩

/-- A thread that waits for the disk, and is woken up by its interrupt. -/
def diskWait : List Notification :=
  [.timestamp 1, .critical (.threadStatus 7 (some .waitBlocked)), .timestamp 5,
    .critical (.softIrqEntry 0 4), .critical (.ttwu 0 0 7)]

theorem reads_properRequests_diskWait : ∃ services : Services,
    services.diskRequests.getIntervals 0 10 = [(⟨1, 5⟩, 7)] ∧
      (SplitsWell 1 20 (services.diskRequests.getIntervals 0 10) ↔
        Divisible 1 20 (services.diskRequests.getIntervals 0 10)) := by
  have hview : (diskWait.foldl (TibeeBuild.step pathSetting (components pathSetting) {})
      (.initial {} {})).buildBlock.components.toOption.map
        (fun services => services.diskRequests.getIntervals 0 10) = some [(⟨1, 5⟩, 7)] := by
    decide +kernel
  obtain ⟨services, hservices, hintervals⟩ := Option.map_eq_some_iff.mp hview
  have hread := reads_properRequests pathSetting {} {} (by decide) services
    (ok_of_toOption hservices) 0 10
  exact ⟨services, hintervals, hread.2 1 20 (by decide)⟩

end TibeeCompare.Build
