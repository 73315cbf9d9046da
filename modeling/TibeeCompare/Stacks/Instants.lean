import TibeeCompare.Stacks.Runs
import TibeeCompare.Stacks.Windows
import TibeeCompare.Lib.Instants

/-!
The two ways to read the stacks of a thread, one against the other.

An enumeration of a window and a question at each of its instants go through the entries
with different searches. On entries in order they agree: a stack has as much of the window
in the enumeration as there are instants of it at which it is found.
-/

namespace TibeeCompare.Stacks

open Db BinarySearch Intervals Timelines

namespace StacksBuilder

/-- The entries that an enumeration calls its callback for. -/
def enumerated (b : StacksBuilder) (thread start end_ : ℕ) : List StackWrapper :=
  (searchBack (before start) (b.stacksOf thread)).takeWhile fun e => e.startTs ≤ end_

theorem enumerateStacks_eq (b : StacksBuilder) (thread start end_ : ℕ) :
    b.enumerateStacks thread start end_ =
      (b.enumerated thread start end_).map fun e => (e.stackId, clipped start end_ e) := rfl

/-- The durations that an enumeration gives for one stack. -/
def durationOf (b : StacksBuilder) (thread start end_ : ℕ) (stackId : StackId) : ℕ :=
  (((b.enumerateStacks thread start end_).filter fun given => given.1 = stackId).map Prod.snd).sum

/-- The instants of a window at which the thread is found with a stack. -/
def instantsOf (b : StacksBuilder) (thread start end_ : ℕ) (stackId : StackId) : Finset ℕ :=
  (Finset.Ico start end_).filter fun t => b.getStack thread t = stackId

end StacksBuilder

/-! ### The stack at an instant -/

/-- The entry that has the instant `t` in it. -/
def entryAt (t : ℕ) (entries : List StackWrapper) : Option StackWrapper :=
  elementAt StackWrapper.startTs StackWrapper.endTs t entries

theorem InOrder.atOrBefore {entries : List StackWrapper} (h : InOrder entries) (t : ℕ) :
    entries.Pairwise fun a b => atOrBefore t b = true → atOrBefore t a = true :=
  h.sorted.imp fun hab hb => atOrBefore_eq_true.mpr (hab.trans (atOrBefore_eq_true.mp hb))

theorem InOrder.lt_startTs_of_mem_dropWhile {entries : List StackWrapper} (h : InOrder entries)
    {t : ℕ} {e : StackWrapper} (he : e ∈ entries.dropWhile (Stacks.atOrBefore t)) :
    t < e.startTs := by
  rw [SortedLists.dropWhile_eq_filter (h.atOrBefore t), List.mem_filter] at he
  simpa [Stacks.atOrBefore] using he.2

/-- The search for the last entry that started by `t` finds the one that has `t` in it. -/
theorem InOrder.entryAt_eq {entries : List StackWrapper} (h : InOrder entries) (t : ℕ) :
    entryAt t entries = (searchBack (Stacks.atOrBefore t) entries).head?.filter
      fun e => decide (e.startTs ≤ t ∧ t < e.endTs) := by
  have hlater : ∀ e ∈ entries.dropWhile (Stacks.atOrBefore t), ¬ (e.startTs ≤ t ∧ t < e.endTs) :=
    fun e he hin => absurd hin.1 (Nat.not_le.mpr (h.lt_startTs_of_mem_dropWhile he))
  have hnone : entryAt t (entries.dropWhile (Stacks.atOrBefore t)) = none :=
    List.find?_eq_none.mpr fun e he => by simpa using hlater e he
  rcases searchBack_cases (h.atOrBefore t) with ⟨htake, heq⟩ | ⟨pre, last, htake, heq⟩
  · have hall := dropWhile_of_takeWhile_nil htake
    rw [heq]
    rw [hall] at hnone hlater
    rw [hnone]
    cases entries with
    | nil => rfl
    | cons e rest =>
        have hhead := hlater e List.mem_cons_self
        rw [List.head?_cons, Option.filter_some, if_neg (by simpa using hhead)]
  · have hsplit := eq_append_of_takeWhile htake
    have hstarted : last.startTs ≤ t :=
      atOrBefore_eq_true.mp (holds_of_takeWhile htake)
    obtain ⟨lo, hi, htiles⟩ := inOrder_iff_tiles.mp h
    have hpairwise := htiles.ordered.pairwise
    rw [hsplit] at hpairwise
    have hended : ∀ e ∈ pre, ¬ (e.startTs ≤ t ∧ t < e.endTs) := by
      intro e he hin
      have hle := (List.pairwise_append.mp hpairwise).2.2 e he last List.mem_cons_self
      exact absurd (hle.trans hstarted) (Nat.not_le.mpr hin.2)
    rw [heq]
    conv_lhs => rw [hsplit]
    rw [entryAt, elementAt_append_of_forall hended, elementAt_cons]
    split
    · next hin => rw [List.head?_cons, Option.filter_some, if_pos (decide_eq_true hin)]
    · next hin =>
        rw [List.head?_cons, Option.filter_some, if_neg (by simpa using hin)]
        exact hnone

theorem StacksBuilder.getStack_eq {b : StacksBuilder} {thread : ℕ}
    (h : InOrder (b.stacksOf thread)) (t : ℕ) :
    b.getStack thread t =
      ((entryAt t (b.stacksOf thread)).map StackWrapper.stackId).getD kEmptyStackId := by
  rw [h.entryAt_eq, StacksBuilder.getStack_eq_searchBack]

theorem StacksBuilder.getStack_eq_iff {b : StacksBuilder} {thread : ℕ}
    (h : InOrder (b.stacksOf thread)) (t : ℕ) {stackId : StackId} (hid : stackId ≠ kEmptyStackId) :
    b.getStack thread t = stackId ↔
      (entryAt t (b.stacksOf thread)).any (fun e => decide (e.stackId = stackId)) = true := by
  rw [StacksBuilder.getStack_eq h]
  cases entryAt t (b.stacksOf thread) with
  | none =>
      constructor
      · exact fun hempty => absurd hempty.symm hid
      · exact fun hany => (by cases hany)
  | some e => simp

/-! ### The entries of a window -/

/-- What an entry has of a window. -/
def overlap (start end_ : ℕ) (e : StackWrapper) : ℕ := min end_ e.endTs - max start e.startTs

theorem InOrder.dropWhile_startTs {entries : List StackWrapper} (h : InOrder entries) {end_ : ℕ}
    {e : StackWrapper} (he : e ∈ entries.dropWhile fun e => e.startTs ≤ end_) :
    end_ < e.startTs := by
  have hsorted : entries.Pairwise fun a b =>
      decide (b.startTs ≤ end_) = true → decide (a.startTs ≤ end_) = true :=
    h.sorted.imp fun hab hb => decide_eq_true (hab.trans (of_decide_eq_true hb))
  rw [SortedLists.dropWhile_eq_filter hsorted, List.mem_filter] at he
  simpa using he.2

/-- The entries that an enumeration leaves out have nothing of the window. -/
theorem sum_overlap_enumerated {b : StacksBuilder} {thread start end_ : ℕ}
    (h : InOrder (b.stacksOf thread)) (p : StackWrapper → Bool) :
    (((b.stacksOf thread).filter p).map (overlap start end_)).sum =
      (((b.enumerated thread start end_).filter p).map (overlap start end_)).sum := by
  have hzero : ∀ l : List StackWrapper, (∀ e ∈ l, overlap start end_ e = 0) →
      ((l.filter p).map (overlap start end_)).sum = 0 := by
    intro l hl
    refine List.sum_eq_zero fun n hn => ?_
    obtain ⟨e, he, rfl⟩ := List.mem_map.mp hn
    exact hl e (List.mem_of_mem_filter he)
  obtain ⟨dropped, hdropped, hfirst⟩ := trims_searchBack (h.before start)
  have hbefore : ∀ e ∈ dropped, overlap start end_ e = 0 := by
    intro e he
    rcases hfirst with rfl | ⟨first, hfirst, hstart⟩
    · cases he
    · obtain ⟨lo, hi, htiles⟩ := inOrder_iff_tiles.mp h
      have hpairwise := htiles.ordered.pairwise
      rw [hdropped] at hpairwise
      have hended := (List.pairwise_append.mp hpairwise).2.2 e he first (List.mem_of_head? hfirst)
      have hstarted := before_eq_true.mp hstart
      rw [overlap]
      omega
  have hbehind : ∀ e ∈ (searchBack (before start) (b.stacksOf thread)).dropWhile
      fun e => e.startTs ≤ end_, overlap start end_ e = 0 := by
    intro e he
    have hkept : InOrder (searchBack (before start) (b.stacksOf thread)) := h.drop _
    have hstart := hkept.dropWhile_startTs he
    rw [overlap]
    omega
  conv_lhs => rw [hdropped, ← List.takeWhile_append_dropWhile
    (p := fun e => decide (e.startTs ≤ end_)) (l := searchBack (before start) (b.stacksOf thread))]
  rw [List.filter_append, List.filter_append, List.map_append, List.map_append, List.sum_append,
    List.sum_append, hzero dropped hbefore, hzero _ hbehind, Nat.zero_add, Nat.add_zero]
  rfl

section Window

variable {b : StacksBuilder} {thread start end_ : ℕ}

/-- No duration wraps below zero. -/
theorem max_le_min_of_mem_enumerated (h : InOrder (b.stacksOf thread)) (hwindow : start ≤ end_)
    (hlast : ∀ back, (b.stacksOf thread).getLast? = some back → end_ ≤ back.endTs)
    {e : StackWrapper} (he : e ∈ b.enumerated thread start end_) :
    max start e.startTs ≤ min end_ e.endTs := by
  have hmem := (List.takeWhile_sublist _).subset he
  have hend := h.le_endTs (fun back hback => hwindow.trans (hlast back hback)) e hmem
  have hproper := h.proper e ((searchBack_suffix _ _).subset hmem)
  have hstart : e.startTs ≤ end_ := by simpa using List.mem_takeWhile_imp he
  omega

theorem durationOf_eq (h : InOrder (b.stacksOf thread)) (hwindow : start ≤ end_)
    (hlast : ∀ back, (b.stacksOf thread).getLast? = some back → end_ ≤ back.endTs)
    (stackId : StackId) :
    b.durationOf thread start end_ stackId =
      (((b.enumerated thread start end_).filter fun e => e.stackId = stackId).map
        (overlap start end_)).sum := by
  rw [StacksBuilder.durationOf, StacksBuilder.enumerateStacks_eq, List.filter_map, List.map_map]
  refine congrArg List.sum (List.map_congr_left fun e he => ?_)
  exact subU64_of_le (max_le_min_of_mem_enumerated h hwindow hlast (List.mem_of_mem_filter he))

/-- A stack has as much of the window as there are instants of it at which it is found. -/
theorem durationOf_eq_card (h : InOrder (b.stacksOf thread)) (hwindow : start ≤ end_)
    (hlast : ∀ back, (b.stacksOf thread).getLast? = some back → end_ ≤ back.endTs)
    {stackId : StackId} (hid : stackId ≠ kEmptyStackId) :
    b.durationOf thread start end_ stackId = (b.instantsOf thread start end_ stackId).card := by
  obtain ⟨lo, hi, htiles⟩ := inOrder_iff_tiles.mp h
  have hinstants := htiles.card_instants start end_ fun e => decide (e.stackId = stackId)
  rw [durationOf_eq h hwindow hlast, ← sum_overlap_enumerated h, StacksBuilder.instantsOf,
    Finset.filter_congr fun t _ => StacksBuilder.getStack_eq_iff h t hid]
  exact hinstants.symm

end Window

/-- After a history that `Terminate` ends, an enumeration of a window up to then gives each stack
as much of the window as there are instants of it at which the thread is found with the stack,
and all stacks together the part of the window that is not before the first entry. -/
theorem enumerateStacks_eq_instants {db db' : Database} {ops : List Op} {b : StacksBuilder}
    (hclock : NonDecreasing ops) (h : after db (ops ++ [.terminate]) = (.ok b, db')) {thread : ℕ}
    {first : StackWrapper} (hfirst : (b.stacksOf thread).head? = some first) {start end_ : ℕ}
    (hwindow : start ≤ end_) (hend : end_ ≤ b.ts) :
    (∀ e ∈ b.enumerated thread start end_, max start e.startTs ≤ min end_ e.endTs) ∧
      ((b.enumerateStacks thread start end_).map Prod.snd).sum = end_ - max start first.startTs ∧
      ∀ stackId, stackId ≠ kEmptyStackId →
        b.durationOf thread start end_ stackId = (b.instantsOf thread start end_ stackId).card := by
  obtain ⟨before, mid, hbefore, hrun⟩ := after_concat_ok.mp h
  obtain ⟨-, horder⟩ := after_inOrder hclock hbefore
  obtain rfl : b = before.terminate := by
    cases hrun
    rfl
  have hterminated : InOrder (before.terminate.stacksOf thread) :=
    (inOrder_closeBack (horder thread).1).mpr (horder thread).2
  have hlast : ∀ back, (before.terminate.stacksOf thread).getLast? = some back →
      end_ ≤ back.endTs := by
    intro back hback
    obtain ⟨open_, -, rfl⟩ := Option.map_eq_some_iff.mp ((getLast?_closeBack _ _).symm.trans hback)
    exact hend
  refine ⟨fun e he => max_le_min_of_mem_enumerated hterminated hwindow hlast he,
    StacksBuilder.sum_enumerateStacks hterminated hwindow hlast hfirst, fun stackId hid => ?_⟩
  exact durationOf_eq_card hterminated hwindow hlast hid

/-- Three stacks of a thread, the second one twice in a row. -/
def threeStacks : List Op :=
  [.setTimestamp 1000, .setStack 1 1 false, .setTimestamp 2000, .setStack 1 2 false,
    .setTimestamp 2500, .setStack 1 2 false, .setTimestamp 3000, .setStack 1 3 false,
    .setTimestamp 4000]

theorem enumerateStacks_eq_instants_threeStacks :
    ∃ b db, after {} (threeStacks ++ [.terminate]) = (.ok b, db) ∧
      ((b.enumerateStacks 1 1500 3500).map Prod.snd).sum = 3500 - max 1500 1000 ∧
      b.durationOf 1 1500 3500 2 = (b.instantsOf 1 1500 3500 2).card := by
  refine ⟨_, _, rfl, ?_⟩
  obtain ⟨-, hsum, hinstants⟩ := @enumerateStacks_eq_instants {} _ threeStacks _ (by decide) rfl
    1 _ rfl 1500 3500 (by decide) (by decide)
  exact ⟨hsum, hinstants 2 (by decide)⟩

end TibeeCompare.Stacks
