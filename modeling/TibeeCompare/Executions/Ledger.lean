import TibeeCompare.Executions.DiskSplit
import TibeeCompare.Stacks.Windows
import Mathlib.Tactic.Ring

/-!
The amounts that the samples of a critical path are incremented by.

They follow from the durations alone, whatever the stacks are. Each segment gives at least
its duration, unless `ExtractStacks` does not come to its end, so that the amounts of a
path are right only if those of each segment are.
-/

namespace TibeeCompare.Executions

open Critical Stacks

/-- How `ExtractStacks` ends. -/
inductive Ending
  | done
  | returned
  | divisionByZero
deriving DecidableEq

/-- The duration of a segment, as the source computes it. -/
def segmentDuration (segment : CriticalPathSegment) : ℕ := subU64 segment.endTs segment.startTs

/-! ### The amounts -/

/-- The amounts of a segment that runs: those of its samples, and what they lack. -/
def runAmounts (d : ℕ) (durations : List ℕ) : List ℕ :=
  durations ++
    if sumU64 durations < d then [subU64 d (sumU64 durations)] else []

/-- The amounts of a segment that waits for a disk: all of it for each interval that the loop
comes to the end of, and the remainder. -/
def diskAmounts (d : ℕ) : List ℕ × SplitEnding → List ℕ × Ending
  | (durations, .finished remainder) => (durations.map (fun _ => d) ++ [remainder], .done)
  | (durations, .returned) => (durations.map (fun _ => d), .returned)
  | (durations, .divisionByZero) => (durations.map (fun _ => d), .divisionByZero)

/-- The amounts of a segment. -/
def Sources.segmentAmounts (sources : Sources) (segment : CriticalPathSegment) :
    List ℕ × Ending :=
  match segment.type with
  | .epsilon => ([], .done)
  | .run =>
      (runAmounts (segmentDuration segment)
        ((sources.stacksBuilder.enumerateStacks segment.tid segment.startTs segment.endTs).map
          Prod.snd), .done)
  | .blockDevice =>
      diskAmounts (segmentDuration segment) (splitSegment segment.tid (segmentDuration segment)
        (sources.diskRequests.getIntervals segment.startTs segment.endTs))
  | _ => ([segmentDuration segment], .done)

/-- The amounts of a path, up to where `ExtractStacks` ends. -/
def Sources.pathAmounts (sources : Sources) : CriticalPath → List ℕ × Ending
  | [] => ([], .done)
  | segment :: path =>
      match sources.segmentAmounts segment with
      | (amounts, .done) => (amounts ++ (sources.pathAmounts path).1, (sources.pathAmounts path).2)
      | ended => ended

/-- What the amounts of a segment have to come to. -/
def due (segment : CriticalPathSegment) : ℕ :=
  if segment.type = .epsilon then 0 else segmentDuration segment

/-- There is no interval, or the first one is of another thread and its share is the whole
segment. -/
def FirstTakesAll (tid d : ℕ) : List DiskInterval → Prop
  | [] => True
  | interval :: intervals =>
      interval.2 ≠ tid ∧ intervalsTotalDuration tid (interval :: intervals) ≠ 0 ∧
        d * intervalsTotalDuration tid (interval :: intervals) ≤ mulU64 d (durationOf interval)

/-- The samples of a segment that runs last no longer than the segment; the first interval takes
all of a segment that waits for a disk. -/
def Sources.Accounted (sources : Sources) (segment : CriticalPathSegment) : Prop :=
  match segment.type with
  | .run =>
      ((sources.stacksBuilder.enumerateStacks segment.tid segment.startTs segment.endTs).map
        Prod.snd).sum ≤ segmentDuration segment
  | .blockDevice =>
      FirstTakesAll segment.tid (segmentDuration segment)
        (sources.diskRequests.getIntervals segment.startTs segment.endTs)
  | _ => True

/-! ### Exactly the durations -/

theorem sum_runAmounts {d : ℕ} (hd : d < U64) (durations : List ℕ) :
    d ≤ (runAmounts d durations).sum ∧ ((runAmounts d durations).sum = d ↔ durations.sum ≤ d) := by
  have hmod : sumU64 durations = durations.sum % U64 := sumU64_eq durations
  have hle : sumU64 durations ≤ durations.sum := hmod ▸ Nat.mod_le _ _
  rw [runAmounts, List.sum_append]
  split
  · next hlt =>
      rw [subU64_of_le hlt.le, List.sum_singleton]
      refine ⟨by omega, fun heq => by omega, fun hsum => ?_⟩
      rw [Nat.mod_eq_of_lt (hsum.trans_lt hd)] at hmod
      omega
  · next hge =>
      rw [List.sum_nil]
      omega

/-- The amounts of a segment are at least its duration, if `ExtractStacks` comes to its end. -/
structure Ledger (d : ℕ) (amounts : List ℕ × Ending) (accounted : Prop) : Prop where
  covers : amounts.2 = .done → d ≤ amounts.1.sum
  exact_iff : (amounts.2 = .done ∧ amounts.1.sum = d) ↔ accounted

/-- A segment that an interval did not take all of is given out again, in whole or in part. -/
theorem lt_sum_given {d duration remainder : ℕ} {durations : List ℕ}
    (hwhole : duration + durations.sum + remainder = d) (hleft : duration < d) :
    d < ((duration :: durations).map (fun _ => d) ++ [remainder]).sum := by
  rw [List.sum_append, List.map_const', List.sum_replicate_nat, List.length_cons,
    List.sum_singleton, Nat.add_mul, Nat.one_mul]
  rcases durations with _ | ⟨next, durations⟩
  · rw [List.sum_nil] at hwhole
    omega
  · rw [List.length_cons, Nat.add_mul, Nat.one_mul]
    omega

/-- Each interval that the loop comes to the end of gets the whole segment, so that only the first
one can take it. -/
theorem ledger_diskAmounts {tid d : ℕ} (hd : d < U64) (intervals : List DiskInterval) :
    Ledger d (diskAmounts d (splitSegment tid d intervals)) (FirstTakesAll tid d intervals) := by
  cases intervals with
  | nil => constructor <;> simp [splitSegment, split, diskAmounts, subU64, FirstTakesAll]
  | cons interval rest =>
      rw [splitSegment, split, FirstTakesAll]
      generalize intervalsTotalDuration tid (interval :: rest) = totalDuration
      by_cases hown : interval.2 = tid
      · constructor <;> simp [hown, diskAmounts]
      by_cases hzero : totalDuration = 0
      · constructor <;> simp [hown, hzero, diskAmounts]
      have hle := stackDuration_add_le (durationOf interval) totalDuration (Nat.zero_le d)
      have hshare : d ≤ stackDuration d (durationOf interval) totalDuration 0 ↔
          d * totalDuration ≤ mulU64 d (durationOf interval) := by
        rw [stackDuration, subU64_of_le (Nat.zero_le d), Nat.sub_zero, Nat.le_min,
          Nat.le_div_iff_mul_le (Nat.pos_of_ne_zero hzero)]
        exact and_iff_left le_rfl
      rw [if_neg hown, if_neg hzero]
      dsimp only
      rw [Nat.zero_add] at hle
      rw [addU64_of_lt (by omega), Nat.zero_add]
      generalize stackDuration d (durationOf interval) totalDuration 0 = duration at hle hshare ⊢
      split
      · next hfull =>
          have heq : subU64 d duration = 0 := by
            rw [subU64_of_le hle]
            omega
          constructor
          · simp [diskAmounts, heq]
          · simp [diskAmounts, heq, hown, hzero, hshare.mp hfull]
      · next hleft =>
          -- what is left is given out again, on top of the whole segment
          have hnot : ¬ (interval.2 ≠ tid ∧ totalDuration ≠ 0 ∧
              d * totalDuration ≤ mulU64 d (durationOf interval)) :=
            fun h => hleft (hshare.mpr h.2.2)
          have hrest := (split_sum tid totalDuration hd rest hle).2
          generalize split tid d totalDuration rest duration = result at hrest ⊢
          rcases result with ⟨durations, remainder | _ | _⟩
          · have hlt := lt_sum_given (hrest remainder rfl) (Nat.lt_of_not_le hleft)
            exact ⟨fun _ => hlt.le, iff_of_false (fun h => hlt.ne' h.2) hnot⟩
          · exact ⟨fun h => (by cases h), iff_of_false (fun h => (by cases h.1)) hnot⟩
          · exact ⟨fun h => (by cases h), iff_of_false (fun h => (by cases h.1)) hnot⟩

theorem ledger_segmentAmounts (sources : Sources) {segment : CriticalPathSegment}
    (hd : segmentDuration segment < U64) :
    Ledger (due segment) (sources.segmentAmounts segment) (sources.Accounted segment) := by
  rw [due, Sources.segmentAmounts, Sources.Accounted]
  cases segment.type with
  | epsilon => constructor <;> simp
  | run =>
      obtain ⟨hle, heq⟩ := sum_runAmounts hd ((sources.stacksBuilder.enumerateStacks segment.tid
        segment.startTs segment.endTs).map Prod.snd)
      exact ⟨fun _ => hle, (and_iff_right rfl).trans heq⟩
  | blockDevice => exact ledger_diskAmounts hd _
  | _ => constructor <;> simp

/-- The samples of a segment are not more than it where the stacks of its thread are in order and
go on to its end. -/
theorem accounted_run {sources : Sources} {segment : CriticalPathSegment}
    (hrun : segment.type = .run) (horder : InOrder (sources.stacksBuilder.stacksOf segment.tid))
    (hsegment : segment.startTs ≤ segment.endTs)
    (hlast : ∀ back, (sources.stacksBuilder.stacksOf segment.tid).getLast? = some back →
      segment.endTs ≤ back.endTs) : sources.Accounted segment := by
  have hle := StacksBuilder.sum_enumerateStacks_le horder hsegment hlast
  rw [← subU64_of_le hsegment] at hle
  rw [Sources.Accounted, hrun]
  exact hle

/-- The amounts of a path are its durations exactly if those of each segment are. -/
theorem ledger_pathAmounts (sources : Sources) {path : CriticalPath}
    (hd : ∀ segment ∈ path, segmentDuration segment < U64) :
    Ledger (path.map due).sum (sources.pathAmounts path)
      (∀ segment ∈ path, sources.Accounted segment) := by
  induction path with
  | nil => constructor <;> simp [Sources.pathAmounts]
  | cons segment path ih =>
      have hsegment := ledger_segmentAmounts sources (hd segment List.mem_cons_self)
      have hpath := ih fun other hmem => hd other (List.mem_cons_of_mem _ hmem)
      rw [Sources.pathAmounts, List.map_cons, List.sum_cons, List.forall_mem_cons]
      generalize sources.segmentAmounts segment = result at hsegment ⊢
      rcases result with ⟨amounts, _ | _ | _⟩
      · have hcovers : due segment ≤ amounts.sum := hsegment.covers rfl
        refine ⟨fun h => ?_, ?_⟩
        · have hrest := hpath.covers h
          rw [List.sum_append]
          exact Nat.add_le_add hcovers hrest
        · rw [← hsegment.exact_iff, ← hpath.exact_iff, List.sum_append]
          dsimp only
          constructor
          · rintro ⟨hdone, heq⟩
            have hrest := hpath.covers hdone
            exact ⟨⟨rfl, by omega⟩, hdone, by omega⟩
          · rintro ⟨⟨-, hfirst⟩, hdone, hrest⟩
            exact ⟨hdone, congrArg₂ (· + ·) hfirst hrest⟩
      · refine ⟨fun h => (by cases h), iff_of_false (fun h => (by cases h.1)) fun h => ?_⟩
        cases (hsegment.exact_iff.mpr h.1).1
      · refine ⟨fun h => (by cases h), iff_of_false (fun h => (by cases h.1)) fun h => ?_⟩
        cases (hsegment.exact_iff.mpr h.1).1

end TibeeCompare.Executions
