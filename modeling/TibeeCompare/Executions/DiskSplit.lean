import TibeeCompare.Disk.Cleanups
import TibeeCompare.Executions.ExtractStacks
import TibeeCompare.Lib.Shares

/-!
The split of a segment over the disk intervals of its window.

The divisor counts the intervals of other threads, while the loop also comes to those of
the thread of the segment, and returns there. It stops early only when nothing of the
segment is left.
-/

namespace TibeeCompare.Executions

open Containers Disk Shares

abbrev DiskInterval := Interval × ℕ

def lengthOf (interval : DiskInterval) : ℕ := interval.1.high - interval.1.low

/-- The intervals of other threads. -/
def foreign (tid : ℕ) (intervals : List DiskInterval) : List DiskInterval :=
  intervals.filter (·.2 ≠ tid)

/-- How the loop over the intervals ends. -/
inductive SplitEnding
  /-- It goes on behind the loop, with what is left of the segment. -/
  | finished (remainder : ℕ)
  | returned
  | divisionByZero
deriving DecidableEq

/-- What the loop of `splitOverIntervals` computes: the durations that it assigns, and how it
ends. -/
def split (tid segmentDuration totalDuration : ℕ) :
    List DiskInterval → ℕ → List ℕ × SplitEnding
  | [], totalIncremented => ([], .finished (subU64 segmentDuration totalIncremented))
  | interval :: intervals, totalIncremented =>
      if interval.2 = tid then ([], .returned)
      else if totalDuration = 0 then ([], .divisionByZero)
      else
        let duration :=
          stackDuration segmentDuration (durationOf interval) totalDuration totalIncremented
        let totalIncremented := addU64 totalIncremented duration
        if segmentDuration ≤ totalIncremented then
          ([duration], .finished (subU64 segmentDuration totalIncremented))
        else
          let (durations, ending) :=
            split tid segmentDuration totalDuration intervals totalIncremented
          (duration :: durations, ending)

/-- The split of a segment of `tid` over some intervals. -/
def splitSegment (tid segmentDuration : ℕ) (intervals : List DiskInterval) : List ℕ × SplitEnding :=
  split tid segmentDuration (intervalsTotalDuration tid intervals) intervals 0

/-- The split goes without an accident: no sum and no product overflows, no difference is
negative, there is no division by zero, and what is assigned and what is left are the whole
segment. -/
structure SplitsWell (tid segmentDuration : ℕ) (intervals : List DiskInterval) : Prop where
  totals : ((foreign tid intervals).map lengthOf).sum < U64 ∧
    (splitSegment tid segmentDuration intervals).1.sum < U64
  products : ∀ interval ∈ intervals.take (splitSegment tid segmentDuration intervals).1.length,
    segmentDuration * lengthOf interval < U64
  differences : ∀ n, ((splitSegment tid segmentDuration intervals).1.take n).sum ≤ segmentDuration
  whole : ∃ remainder,
    (splitSegment tid segmentDuration intervals).2 = .finished remainder ∧
      (splitSegment tid segmentDuration intervals).1.sum + remainder = segmentDuration

/-- Intervals with these lengths take the whole segment: it is empty, or they are all of the
total and no share is rounded. -/
def TakeAll (segmentDuration totalDuration : ℕ) (lengths : List ℕ) : Prop :=
  segmentDuration = 0 ∨
    lengths.sum = totalDuration ∧ ∀ length ∈ lengths, totalDuration ∣ segmentDuration * length

/-- The loop comes to an interval behind others if none of these took the rest of the
segment. -/
def ComesTo (segmentDuration totalDuration : ℕ) (before : List DiskInterval) : Prop :=
  ∀ done, done <+: before → done ≠ [] →
    ¬ TakeAll segmentDuration totalDuration (done.map lengthOf)

/-- The intervals of other threads do not overflow in total, and each interval that the loop
comes to is of another thread, with a total that is not zero and a product that does not
overflow. -/
structure Divisible (tid segmentDuration : ℕ) (intervals : List DiskInterval) : Prop where
  total : ((foreign tid intervals).map lengthOf).sum < U64
  each : ∀ before interval after, intervals = before ++ interval :: after →
    ComesTo segmentDuration ((foreign tid intervals).map lengthOf).sum before →
    interval.2 ≠ tid ∧ ((foreign tid intervals).map lengthOf).sum ≠ 0 ∧
      segmentDuration * lengthOf interval < U64

/-! ### Sums -/

theorem sumU64_eq (durations : List ℕ) : sumU64 durations = durations.sum % U64 := by
  have hfold : ∀ start, durations.foldl addU64 start % U64 = (start + durations.sum) % U64 := by
    induction durations with
    | nil => intro start; rfl
    | cons duration durations ih =>
        intro start
        rw [List.foldl_cons, ih, addU64, List.sum_cons, ← Nat.add_assoc, Nat.mod_add_mod]
  have hlt : sumU64 durations < U64 := by
    rw [sumU64]
    rcases List.eq_nil_or_concat durations with rfl | ⟨pre, last, rfl⟩
    · decide
    · rw [List.concat_eq_append, List.foldl_append]
      exact Nat.mod_lt _ (by decide)
  have hmod := hfold 0
  rwa [Nat.zero_add, ← sumU64, Nat.mod_eq_of_lt hlt] at hmod

theorem durationOf_eq {interval : DiskInterval} (h : interval.1.low ≤ interval.1.high) :
    durationOf interval = lengthOf interval := subU64_of_le h

theorem intervalsTotalDuration_eq {tid : ℕ} {intervals : List DiskInterval}
    (hproper : ∀ interval ∈ intervals, interval.1.low ≤ interval.1.high) :
    intervalsTotalDuration tid intervals = ((foreign tid intervals).map lengthOf).sum % U64 := by
  rw [intervalsTotalDuration, sumU64_eq]
  congr 2
  exact List.map_congr_left fun interval hmem =>
    durationOf_eq (hproper interval (List.mem_of_mem_filter hmem))

/-! ### The loop -/

section Loop

variable {tid d total : ℕ}

theorem stackDuration_add_le (duration totalDuration : ℕ) (h : total ≤ d) :
    total + stackDuration d duration totalDuration total ≤ d := by
  have hmin : stackDuration d duration totalDuration total ≤ subU64 d total := Nat.min_le_right _ _
  rw [subU64_of_le h] at hmin
  omega

/-- The durations that are assigned never exceed what is left, and the remainder is the rest. -/
theorem split_sum (tid totalDuration : ℕ) (hd : d < U64) (intervals : List DiskInterval)
    (h : total ≤ d) :
    total + (split tid d totalDuration intervals total).1.sum ≤ d ∧
      ∀ remainder, (split tid d totalDuration intervals total).2 = .finished remainder →
        total + (split tid d totalDuration intervals total).1.sum + remainder = d := by
  induction intervals generalizing total with
  | nil =>
      rw [split]
      refine ⟨h, ?_⟩
      rintro remainder ⟨⟩
      rw [List.sum_nil, subU64_of_le h]
      omega
  | cons interval intervals ih =>
      rw [split]
      split
      · exact ⟨h, fun _ heq => (by cases heq)⟩
      split
      · exact ⟨h, fun _ heq => (by cases heq)⟩
      dsimp only
      have hle := stackDuration_add_le (durationOf interval) totalDuration h
      rw [addU64_of_lt (hle.trans_lt hd)]
      split
      · refine ⟨by simpa using hle, ?_⟩
        rintro remainder ⟨⟩
        rw [List.sum_singleton, subU64_of_le hle]
        omega
      · obtain ⟨hsum, hrest⟩ := ih hle
        rw [List.sum_cons, ← Nat.add_assoc]
        exact ⟨hsum, hrest⟩

theorem stackDuration_eq {duration totalDuration : ℕ} (hproduct : d * duration < U64)
    (h : total + d * duration / totalDuration ≤ d) :
    stackDuration d duration totalDuration total = d * duration / totalDuration := by
  have htotal : total ≤ d := (Nat.le_add_right _ _).trans h
  rw [stackDuration, mulU64, Nat.mod_eq_of_lt hproduct, subU64_of_le htotal]
  exact Nat.min_eq_left (by omega)

/-- A run of the loop over some intervals has no accident. -/
def NoAccident (d : ℕ) (intervals : List DiskInterval) (result : List ℕ × SplitEnding) : Prop :=
  (∀ interval ∈ intervals.take result.1.length, d * lengthOf interval < U64) ∧
    ∃ remainder, result.2 = .finished remainder

theorem noAccident_cons {interval : DiskInterval} {intervals : List DiskInterval} {duration : ℕ}
    {durations : List ℕ} {ending : SplitEnding} (hproduct : d * lengthOf interval < U64) :
    NoAccident d (interval :: intervals) (duration :: durations, ending) ↔
      NoAccident d intervals (durations, ending) := by
  rw [NoAccident, NoAccident, List.length_cons, List.take_succ_cons, List.forall_mem_cons]
  exact ⟨fun h => ⟨h.1.2, h.2⟩, fun h => ⟨⟨hproduct, h.1⟩, h.2⟩⟩

/-- Nothing is left of the segment exactly if the intervals so far take it all. -/
theorem sum_shares_concat {done : List DiskInterval} (interval : DiskInterval) {totalDuration : ℕ}
    (htotal : total = (shares d totalDuration (done.map lengthOf)).sum) :
    total + d * lengthOf interval / totalDuration =
      (shares d totalDuration ((done ++ [interval]).map lengthOf)).sum := by
  rw [htotal, shares, shares, List.map_append, List.map_append, List.sum_append]
  simp

theorem ComesTo.concat {done : List DiskInterval} {interval : DiskInterval} {totalDuration : ℕ}
    (h : ComesTo d totalDuration done)
    (hnot : ¬ TakeAll d totalDuration ((done ++ [interval]).map lengthOf)) :
    ComesTo d totalDuration (done ++ [interval]) := by
  intro earlier hearlier hne
  rcases List.prefix_concat_iff.mp hearlier with rfl | hprefix
  · exact hnot
  · exact h earlier hprefix hne

/-- The loop can go over an interval: it is of another thread, and its share can be computed. -/
def Allows (tid d totalDuration : ℕ) (interval : DiskInterval) : Prop :=
  interval.2 ≠ tid ∧ totalDuration ≠ 0 ∧ d * lengthOf interval < U64

/-- It can go over each interval that it comes to, behind those that are done. -/
def AllowsEach (tid d totalDuration : ℕ) (done rest : List DiskInterval) : Prop :=
  ∀ before interval after, rest = before ++ interval :: after →
    ComesTo d totalDuration (done ++ before) → Allows tid d totalDuration interval

section Each

variable {totalDuration : ℕ} {done rest : List DiskInterval} {interval : DiskInterval}

theorem AllowsEach.first (h : AllowsEach tid d totalDuration done (interval :: rest))
    (hcomes : ComesTo d totalDuration done) : Allows tid d totalDuration interval :=
  h [] interval rest rfl (by rwa [List.append_nil])

theorem allowsEach_cons_of_takeAll (hcomes : ComesTo d totalDuration done)
    (hall : TakeAll d totalDuration ((done ++ [interval]).map lengthOf)) :
    AllowsEach tid d totalDuration done (interval :: rest) ↔
      Allows tid d totalDuration interval := by
  refine ⟨fun h => h.first hcomes, fun h before other after heq hcomes' => ?_⟩
  cases before with
  | nil =>
      obtain ⟨rfl, -⟩ := List.cons.inj heq
      exact h
  | cons first before =>
      obtain ⟨rfl, -⟩ := List.cons.inj heq
      have hearlier : done ++ [interval] <+: done ++ interval :: before := ⟨before, by simp⟩
      exact absurd hall (hcomes' _ hearlier (by simp))

theorem allowsEach_cons (hcomes : ComesTo d totalDuration done) :
    AllowsEach tid d totalDuration done (interval :: rest) ↔
      Allows tid d totalDuration interval ∧
        AllowsEach tid d totalDuration (done ++ [interval]) rest := by
  constructor
  · intro h
    refine ⟨h.first hcomes, fun before other after heq hcomes' => ?_⟩
    exact h (interval :: before) other after (by rw [heq]; rfl) (by simpa using hcomes')
  · rintro ⟨hfirst, h⟩ before other after heq hcomes'
    cases before with
    | nil =>
        obtain ⟨rfl, -⟩ := List.cons.inj heq
        exact hfirst
    | cons first before =>
        obtain ⟨rfl, htail⟩ := List.cons.inj heq
        exact h before other after htail (by simpa using hcomes')

theorem not_noAccident_cons (hnot : ¬ Allows tid d totalDuration interval) :
    ¬ NoAccident d (interval :: rest) (split tid d totalDuration (interval :: rest) total) := by
  rw [split]
  by_cases hown : interval.2 = tid
  · rw [if_pos hown]
    rintro ⟨-, remainder, heq⟩
    cases heq
  by_cases hzero : totalDuration = 0
  · rw [if_neg hown, if_pos hzero]
    rintro ⟨-, remainder, heq⟩
    cases heq
  rw [if_neg hown, if_neg hzero]
  intro h
  have hmem : ∀ durations : List ℕ, durations ≠ [] →
      interval ∈ (interval :: rest).take durations.length := by
    intro durations hne
    obtain ⟨duration, durations, rfl⟩ := List.exists_cons_of_ne_nil hne
    simp
  refine hnot ⟨hown, hzero, h.1 interval (hmem _ ?_)⟩
  dsimp only
  split <;> simp

end Each

/-- The loop has no accident exactly if it can go over each interval that it comes to. -/
theorem split_noAccident_iff {totalDuration : ℕ} (hd : d < U64) {done rest : List DiskInterval}
    (hproper : ∀ interval ∈ rest, interval.1.low ≤ interval.1.high)
    (hsum : (done.map lengthOf).sum + ((foreign tid rest).map lengthOf).sum = totalDuration)
    (htotal : total = (shares d totalDuration (done.map lengthOf)).sum) (hle : total ≤ d)
    (hcomes : ComesTo d totalDuration done) :
    NoAccident d rest (split tid d totalDuration rest total) ↔
      AllowsEach tid d totalDuration done rest := by
  induction rest generalizing done total with
  | nil =>
      refine ⟨fun _ before interval after heq => ?_, fun _ => ⟨?_, _, rfl⟩⟩
      · exact absurd heq.symm (by simp)
      · simp
  | cons interval rest ih =>
      -- Whether the loop gets over the first interval is told by the interval alone.
      by_cases hallows : Allows tid d totalDuration interval
      swap
      · exact iff_of_false (not_noAccident_cons hallows) fun h => hallows (h.first hcomes)
      obtain ⟨hown, hzero, hproduct⟩ := id hallows
      have hforeign : foreign tid (interval :: rest) = interval :: foreign tid rest :=
        List.filter_cons_of_pos (by simpa using hown)
      have hsum' : ((done ++ [interval]).map lengthOf).sum +
          ((foreign tid rest).map lengthOf).sum = totalDuration := by
        rw [hforeign, List.map_cons, List.sum_cons] at hsum
        rw [List.map_append, List.sum_append, List.map_singleton, List.sum_singleton]
        omega
      have hpos : 0 < totalDuration := Nat.pos_of_ne_zero hzero
      have hshare := sum_shares_concat interval htotal
      have hfits : ((done ++ [interval]).map lengthOf).sum ≤ totalDuration := by omega
      have hle' : total + d * lengthOf interval / totalDuration ≤ d :=
        hshare.trans_le (sum_shares_le hpos hfits)
      rw [split, if_neg hown, if_neg hzero]
      dsimp only
      rw [durationOf_eq (hproper interval List.mem_cons_self), stackDuration_eq hproduct hle',
        addU64_of_lt (hle'.trans_lt hd)]
      by_cases hall : TakeAll d totalDuration ((done ++ [interval]).map lengthOf)
      · -- the loop ends here: nothing is left
        have hfull := (sum_shares_eq_iff hpos hfits).mpr hall
        rw [if_pos (by omega), allowsEach_cons_of_takeAll hcomes hall]
        refine ⟨fun _ => hallows, fun _ => ⟨?_, _, rfl⟩⟩
        simpa using hproduct
      · have hrest : ¬ d ≤ total + d * lengthOf interval / totalDuration := by
          intro hge
          exact hall ((sum_shares_eq_iff hpos hfits).mp (by omega))
        have htail := ih (fun other hmem => hproper other (List.mem_cons_of_mem _ hmem)) hsum'
          hshare hle' (hcomes.concat hall)
        rw [if_neg hrest, allowsEach_cons hcomes, and_iff_right hallows]
        exact (noAccident_cons hproduct).trans htail

end Loop

theorem splitsWell_iff_noAccident {tid d : ℕ} {intervals : List DiskInterval} (hd : d < U64) :
    SplitsWell tid d intervals ↔ ((foreign tid intervals).map lengthOf).sum < U64 ∧
      NoAccident d intervals (splitSegment tid d intervals) := by
  have hsum := split_sum tid (intervalsTotalDuration tid intervals) hd intervals (Nat.zero_le d)
  rw [← splitSegment] at hsum
  obtain ⟨hle, hrest⟩ := hsum
  constructor
  · rintro ⟨htotals, hproducts, -, remainder, heq, -⟩
    exact ⟨htotals.1, hproducts, remainder, heq⟩
  · rintro ⟨htotal, hproducts, remainder, heq⟩
    refine ⟨⟨htotal, by omega⟩, hproducts, fun n => ?_, remainder, heq, ?_⟩
    · exact ((List.take_sublist n _).sum_le_sum fun _ _ => Nat.zero_le _).trans (by omega)
    · have hwhole := hrest remainder heq
      omega

/-- Intervals that were added with a start before their end are read so. -/
theorem proper_of_getIntervals {ops : List Disk.Op}
    (hproper : ∀ e ∈ added ops, e.1.low ≤ e.1.high) (start end_ : ℕ) :
    ∀ interval ∈ (Disk.after ops).getIntervals start end_, interval.1.low ≤ interval.1.high := by
  intro interval hmem
  have hstored := List.mem_of_mem_filter ((getIntervals_perm ops start end_).mem_iff.mp hmem)
  exact hproper interval ((stored_sublist ops).mem hstored)

theorem comesTo_nil (d totalDuration : ℕ) : ComesTo d totalDuration [] :=
  fun _ hprefix hne => absurd (List.prefix_nil.mp hprefix) hne

theorem splitsWell_iff_of_proper {tid d : ℕ} {intervals : List DiskInterval} (hd : d < U64)
    (hproper : ∀ interval ∈ intervals, interval.1.low ≤ interval.1.high) :
    SplitsWell tid d intervals ↔ Divisible tid d intervals := by
  have hsum : (([] : List DiskInterval).map lengthOf).sum +
      ((foreign tid intervals).map lengthOf).sum = ((foreign tid intervals).map lengthOf).sum := by
    simp
  have hloop := split_noAccident_iff hd hproper hsum rfl (Nat.zero_le _) (comesTo_nil d _)
  rw [splitsWell_iff_noAccident hd, splitSegment, intervalsTotalDuration_eq hproper]
  constructor
  · rintro ⟨htotal, hgood⟩
    rw [Nat.mod_eq_of_lt htotal] at hgood
    exact ⟨htotal, hloop.mp hgood⟩
  · rintro ⟨htotal, heach⟩
    rw [Nat.mod_eq_of_lt htotal]
    exact ⟨htotal, hloop.mpr heach⟩

/-- The split of a block-device segment over the intervals that are read for it goes without an
accident exactly if they are divisible. -/
theorem splitsWell_iff_divisible {ops : List Disk.Op}
    (hproper : ∀ e ∈ added ops, e.1.low ≤ e.1.high) {segment : Critical.CriticalPathSegment}
    (hsegment : segment.startTs ≤ segment.endTs) (hend : segment.endTs < U64) :
    SplitsWell segment.tid (subU64 segment.endTs segment.startTs)
        ((Disk.after ops).getIntervals segment.startTs segment.endTs) ↔
      Divisible segment.tid (subU64 segment.endTs segment.startTs)
        ((Disk.after ops).getIntervals segment.startTs segment.endTs) := by
  refine splitsWell_iff_of_proper ?_ (proper_of_getIntervals hproper _ _)
  rw [subU64_of_le hsegment]
  omega

/-- A segment that is shared with two other threads. -/
theorem splitsWell_iff_divisible_twoThreads :
    SplitsWell 1 (subU64 20 10)
        ((Disk.after [.addInterval 10 14 2, .addInterval 12 18 3]).getIntervals 10 20) ↔
      Divisible 1 (subU64 20 10)
        ((Disk.after [.addInterval 10 14 2, .addInterval 12 18 3]).getIntervals 10 20) :=
  @splitsWell_iff_divisible [.addInterval 10 14 2, .addInterval 12 18 3] (by decide)
    ⟨10, 20, 1, .blockDevice⟩ (by decide) (by decide)

/-- The only interval of another thread has no length. -/
theorem not_splitsWell_noLength :
    ¬ SplitsWell 1 (subU64 10 0) ((Disk.after [.addInterval 5 5 2]).getIntervals 0 10) := by
  intro h
  obtain ⟨remainder, heq, -⟩ := h.whole
  have hzero : (splitSegment 1 (subU64 10 0)
      ((Disk.after [.addInterval 5 5 2]).getIntervals 0 10)).2 = .divisionByZero := by decide
  rw [hzero] at heq
  cases heq

end TibeeCompare.Executions
