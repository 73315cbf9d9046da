import TibeeCompare.Disk.DiskRequests
import TibeeCompare.Containers.Intersection

/-!
Histories of disk requests with cleanups, against the same histories without them.

A cleanup keeps what a search from its cutoff on reports. What it drops ends before the
cutoff, or exactly at it without a longer interval of the same start; only the second
kind can be missed later, when such a longer interval is added after all.
-/

namespace TibeeCompare.Disk

open Containers RedBlackIntervalTree

inductive Op
  | addInterval (start end_ tid : ℕ)
  | cleanup (ts : ℕ)
deriving DecidableEq

def Op.run (requests : DiskRequests) : Op → DiskRequests
  | addInterval start end_ tid => requests.addInterval start end_ tid
  | cleanup ts => requests.cleanup ts

/-- The requests after some operations. -/
def after (ops : List Op) : DiskRequests := ops.foldl Op.run {}

def Op.interval? : Op → Option (Interval × ℕ)
  | addInterval start end_ tid => some (⟨start, end_⟩, tid)
  | cleanup _ => none

def Op.cutoff? : Op → Option ℕ
  | addInterval _ _ _ => none
  | cleanup ts => some ts

/-- The intervals that operations add. -/
def added (ops : List Op) : List (Interval × ℕ) := ops.filterMap Op.interval?

def cutoffs (ops : List Op) : List ℕ := ops.filterMap Op.cutoff?

def withoutCleanups (ops : List Op) : List Op := ops.filter fun op => op.interval?.isSome

/-- The run with the cleanups and the run without them answer alike from the cutoffs on. -/
def SameAnswers (ops : List Op) : Prop :=
  ∀ start end_, start ≤ end_ → (∀ cutoff ∈ cutoffs ops, cutoff ≤ start) →
    ((after ops).getIntervals start end_).Perm
      ((after (withoutCleanups ops)).getIntervals start end_)

/-- An interval that a cleanup with the latest cutoff finds to end there gets a longer
interval with its start either before this cleanup or never. -/
def NoLateJoin (ops : List Op) : Prop :=
  ∀ pre cutoff post, ops = pre ++ Op.cleanup cutoff :: post →
    (∀ other ∈ cutoffs ops, other ≤ cutoff) →
    ∀ e ∈ added pre, e.1.high = cutoff →
      (∃ longer ∈ added ops, longer.1.low = e.1.low ∧ cutoff < longer.1.high) →
      ∃ longer ∈ added pre, longer.1.low = e.1.low ∧ cutoff < longer.1.high

@[simp] theorem added_append (ops ops' : List Op) : added (ops ++ ops') = added ops ++ added ops' :=
  List.filterMap_append

@[simp] theorem cutoffs_append (ops ops' : List Op) :
    cutoffs (ops ++ ops') = cutoffs ops ++ cutoffs ops' := List.filterMap_append

/-! ### What is stored -/

/-- What one operation makes of the stored intervals. -/
def storeOp (stored : List (Interval × ℕ)) : Op → List (Interval × ℕ)
  | .addInterval start end_ tid => stored ++ [(⟨start, end_⟩, tid)]
  | .cleanup ts => stored.filter fun e => Reported stored ⟨ts, U64 - 1⟩ e

/-- The intervals that are there after some operations. -/
def stored (ops : List Op) : List (Interval × ℕ) := ops.foldl storeOp []

theorem stored_append (ops : List Op) (op : Op) : stored (ops ++ [op]) = storeOp (stored ops) op :=
  List.foldl_append

theorem after_append (ops : List Op) (op : Op) : after (ops ++ [op]) = op.run (after ops) :=
  List.foldl_append

/-- The tree holds the stored intervals. -/
theorem represents_stored (ops : List Op) :
    (after ops).intervals.Valid ∧ (after ops).intervals.root.toList.Perm (stored ops) := by
  induction ops using List.reverseRecOn with
  | nil => exact ⟨valid_empty, List.Perm.refl _⟩
  | append_singleton ops op ih =>
      obtain ⟨hvalid, hperm⟩ := ih
      rw [after_append, stored_append]
      cases op with
      | addInterval start end_ tid =>
          have hadd := (groups_insertAll [(⟨start, end_⟩, tid)] hvalid.groups).2.2
          exact ⟨hvalid.insert _ _,
            hadd.trans ((hperm.cons _).trans (List.perm_append_singleton _ _).symm)⟩
      | cleanup ts =>
          have hempty : Valid ({} : RedBlackIntervalTree ℕ) := valid_empty
          refine ⟨valid_insertAll hempty _, (perm_insertAll _).trans ?_⟩
          refine (hvalid.enumerateIntersection_perm _).trans ?_
          simp only [reported_congr hperm]
          exact hperm.filter _

theorem getIntervals_perm (ops : List Op) (start end_ : ℕ) :
    ((after ops).getIntervals start end_).Perm
      ((stored ops).filter fun e => Reported (stored ops) ⟨start, end_⟩ e) := by
  obtain ⟨hvalid, hperm⟩ := represents_stored ops
  refine (hvalid.enumerateIntersection_perm _).trans ?_
  simp only [reported_congr hperm]
  exact hperm.filter _

theorem stored_withoutCleanups (ops : List Op) : stored (withoutCleanups ops) = added ops := by
  induction ops using List.reverseRecOn with
  | nil => rfl
  | append_singleton ops op ih =>
      rw [withoutCleanups, List.filter_append, ← withoutCleanups, added_append, ← ih]
      cases op with
      | addInterval start end_ tid => exact stored_append _ _
      | cleanup ts => simp [added, Op.interval?]

theorem stored_append_sublist (ops ops' : List Op) :
    List.Sublist (stored (ops ++ ops')) (stored ops ++ added ops') := by
  induction ops' using List.reverseRecOn with
  | nil => simp [added]
  | append_singleton ops' op ih =>
      rw [← List.append_assoc, stored_append, added_append, ← List.append_assoc]
      cases op with
      | addInterval start end_ tid => exact ih.append_right _
      | cleanup ts =>
          refine List.filter_sublist.trans (ih.trans ?_)
          simp [added, Op.interval?]

theorem stored_sublist (ops : List Op) : List.Sublist (stored ops) (added ops) :=
  stored_append_sublist [] ops

/-- An interval that ends behind all cutoffs is not dropped. -/
theorem mem_stored_of_lt {ops : List Op} {e : Interval × ℕ} (he : e ∈ added ops)
    (hlow : e.1.low < U64) (hhigh : ∀ cutoff ∈ cutoffs ops, cutoff < e.1.high) :
    e ∈ stored ops := by
  induction ops using List.reverseRecOn with
  | nil => exact he
  | append_singleton ops op ih =>
      rw [added_append, List.mem_append] at he
      rw [cutoffs_append] at hhigh
      have hpre : e ∈ added ops → e ∈ stored ops :=
        fun he => ih he fun cutoff hc => hhigh cutoff (List.mem_append_left _ hc)
      rw [stored_append]
      cases op with
      | addInterval start end_ tid =>
          rcases he with he | he
          · exact List.mem_append_left _ (hpre he)
          · exact List.mem_append_right _ he
      | cleanup ts =>
          have hstored := hpre (he.resolve_right fun h => (by simp [added, Op.interval?] at h))
          have hts : ts < e.1.high := hhigh ts (by simp [cutoffs, Op.cutoff?])
          refine List.mem_filter.mpr ⟨hstored, decide_eq_true ⟨⟨?_, hts.le⟩, e, hstored, rfl, hts⟩⟩
          show e.1.low ≤ U64 - 1
          omega

/-! ### Answers -/

section Answers

variable {ops : List Op} {query : Interval} (hlow : ∀ e ∈ added ops, e.1.low < U64)
  (hcutoffs : ∀ cutoff ∈ cutoffs ops, cutoff ≤ query.low)

include hlow hcutoffs in
/-- The longest intervals of an answer are still there. -/
theorem reported_stored (e : Interval × ℕ) :
    Reported (stored ops) query e ↔ Reported (added ops) query e := by
  constructor
  · rintro ⟨hmeets, longest, hmem, hlongest⟩
    exact ⟨hmeets, longest, (stored_sublist ops).mem hmem, hlongest⟩
  · rintro ⟨hmeets, longest, hmem, hsame, hlt⟩
    exact ⟨hmeets, longest, mem_stored_of_lt hmem (hlow longest hmem)
      (fun cutoff hc => (hcutoffs cutoff hc).trans_lt hlt), hsame, hlt⟩

/-- If no cleanup drops an interval with the property `p`, the intervals that have it
are those that were added. -/
theorem filter_stored {p : Interval × ℕ → Prop} [DecidablePred p] {ops : List Op}
    (h : ∀ pre cutoff post, ops = pre ++ Op.cleanup cutoff :: post →
      ∀ e ∈ stored pre, p e → Reported (stored pre) ⟨cutoff, U64 - 1⟩ e) :
    ((stored ops).filter fun e => p e) = (added ops).filter fun e => p e := by
  induction ops using List.reverseRecOn with
  | nil => rfl
  | append_singleton ops op ih =>
      have hpre := ih fun pre cutoff post heq => h pre cutoff (post ++ [op]) (by simp [heq])
      rw [stored_append, added_append, List.filter_append, ← hpre]
      cases op with
      | addInterval start end_ tid => exact List.filter_append ..
      | cleanup ts =>
          rw [storeOp, List.filter_filter]
          simp only [added, Op.interval?, List.filterMap_cons, List.filterMap_nil, List.filter_nil,
            List.append_nil]
          refine List.filter_congr fun e he => ?_
          by_cases hp : p e
          · rw [decide_eq_true hp, decide_eq_true (h ops ts [] rfl e he hp)]
            rfl
          · simp [hp]

include hlow hcutoffs in
theorem filter_stored_reported (hjoin : NoLateJoin ops) :
    ((stored ops).filter fun e => Reported (added ops) query e) =
      (added ops).filter fun e => Reported (added ops) query e := by
  refine filter_stored ?_
  rintro pre cutoff post rfl e he ⟨⟨-, hhigh⟩, longest, hlongest, hsame, hlt⟩
  have hcutoff : cutoff ≤ query.low := hcutoffs cutoff (by simp [cutoffs, Op.cutoff?])
  have hpre : ∀ e ∈ added pre, e.1.low < U64 := fun e he => hlow e (by simp [he])
  have hadded := (stored_sublist pre).mem he
  refine ⟨⟨?_, hcutoff.trans hhigh⟩, ?_⟩
  · have := hpre e hadded
    show e.1.low ≤ U64 - 1
    omega
  · rcases Nat.eq_or_lt_of_le (hcutoff.trans hhigh) with heq | hbehind
    · -- it ends at the cutoff, which is then the latest one
      have hlatest : ∀ other ∈ cutoffs (pre ++ Op.cleanup cutoff :: post), other ≤ cutoff :=
        fun other hother => (hcutoffs other hother).trans (hhigh.trans heq.ge)
      obtain ⟨longer, hmem, hlonger⟩ := hjoin pre cutoff post rfl hlatest e hadded heq.symm
        ⟨longest, hlongest, hsame, hcutoff.trans_lt hlt⟩
      refine ⟨longer, mem_stored_of_lt hmem (hpre longer hmem) (fun other hother => ?_), hlonger⟩
      exact (hlatest other (by simp [hother])).trans_lt hlonger.2
    · exact ⟨e, he, rfl, hbehind⟩

end Answers

theorem count_reported {elements : List (Interval × ℕ)} {query : Interval} {e : Interval × ℕ}
    (h : Reported elements query e) (l : List (Interval × ℕ)) :
    (l.filter fun e => Reported elements query e).count e = l.count e :=
  List.count_filter (p := fun e => decide (Reported elements query e)) (decide_eq_true h)

/-- Cleanups change no answer from the cutoffs on exactly if no dropped interval gets a
longer one with its start later. -/
theorem sameAnswers_iff {ops : List Op} (hlow : ∀ e ∈ added ops, e.1.low < U64) :
    SameAnswers ops ↔ NoLateJoin ops := by
  have hwithout : ∀ start end_, ((after (withoutCleanups ops)).getIntervals start end_).Perm
      ((added ops).filter fun e => Reported (added ops) ⟨start, end_⟩ e) := by
    intro start end_
    have hperm := getIntervals_perm (withoutCleanups ops) start end_
    rwa [stored_withoutCleanups] at hperm
  constructor
  · rintro hsame pre cutoff post rfl hlatest e he hends ⟨longer, hlonger, hjoins, hlt⟩
    by_contra hnone
    have hdropped : e ∉ stored (pre ++ [Op.cleanup cutoff]) := by
      rw [stored_append]
      intro hmem
      obtain ⟨-, longest, hlongest, hlow⟩ := of_decide_eq_true (List.mem_filter.mp hmem).2
      exact hnone ⟨longest, (stored_sublist pre).mem hlongest, hlow⟩
    -- the query that starts at the cutoff and reaches the interval
    have hperm := (getIntervals_perm _ _ _).symm.trans
      ((hsame cutoff (max cutoff e.1.low) (Nat.le_max_left _ _) hlatest).trans (hwithout _ _))
    have hcount := hperm.count_eq e
    have hreported : Reported (added (pre ++ Op.cleanup cutoff :: post))
        ⟨cutoff, max cutoff e.1.low⟩ e :=
      ⟨⟨Nat.le_max_right _ _, hends.ge⟩, longer, hlonger, hjoins, hlt⟩
    have hreported' := (reported_stored hlow hlatest e).mpr hreported
    rw [count_reported hreported', count_reported hreported] at hcount
    have hleft : (stored (pre ++ Op.cleanup cutoff :: post)).count e ≤ (added post).count e := by
      have hsub := (stored_append_sublist (pre ++ [Op.cleanup cutoff]) post).count_le e
      rw [List.count_append, List.count_eq_zero_of_not_mem hdropped, List.append_assoc] at hsub
      simpa using hsub
    have hright : (added (pre ++ Op.cleanup cutoff :: post)).count e =
        (added pre).count e + (added post).count e := by
      rw [added_append, List.count_append]
      rfl
    have hpos : 0 < (added pre).count e := List.count_pos_iff.mpr he
    omega
  · intro hjoin start end_ _ hcutoffs
    refine (getIntervals_perm ops start end_).trans (List.Perm.trans ?_ (hwithout start end_).symm)
    have hreported : ∀ e,
        Reported (stored ops) ⟨start, end_⟩ e ↔ Reported (added ops) ⟨start, end_⟩ e :=
      reported_stored hlow hcutoffs
    simp only [hreported]
    exact List.Perm.of_eq (filter_stored_reported hlow hcutoffs hjoin)

/-- The longer interval is there before the cleanup. -/
theorem sameAnswers_joinedBefore :
    SameAnswers [.addInterval 1 5 7, .addInterval 1 9 8, .cleanup 5] := by
  refine (sameAnswers_iff (by decide)).mpr ?_
  intro pre cutoff post heq _ e he hends hlonger
  rcases pre with _ | ⟨op, _ | ⟨op', _ | ⟨op'', pre⟩⟩⟩
  · cases heq
  · cases heq
  · cases heq
    exact hlonger
  · cases pre <;> cases heq

/-- The interval that ends at the cutoff is missed once a longer one has joined it. -/
theorem not_sameAnswers_lateJoin :
    ¬ SameAnswers [.addInterval 1 5 7, .cleanup 5, .addInterval 1 9 8] := by
  intro h
  have hlength := (h 5 10 (by decide) (by decide)).length_eq
  revert hlength
  decide

end TibeeCompare.Disk
