import TibeeCompare.Stacks.Cleanups

/-!
The stacks of a thread in a window of time.

Where the entries are in order and the last one ends at the end of the window or later, the
durations that a window is enumerated with add up to the part of it that is not before the
first entry.
-/

namespace TibeeCompare.Stacks

open BinarySearch Intervals Timelines

/-- What the callback is given for one entry. -/
def clipped (start end_ : ℕ) (e : StackWrapper) : ℕ :=
  subU64 (min end_ e.endTs) (max start e.startTs)

theorem StacksBuilder.map_snd_enumerateStacks (b : StacksBuilder) (thread start end_ : ℕ) :
    (b.enumerateStacks thread start end_).map Prod.snd =
      ((searchBack (before start) (b.stacksOf thread)).takeWhile fun e => e.startTs ≤ end_).map
        (clipped start end_) := by
  rw [StacksBuilder.enumerateStacks, List.map_map]
  rfl

/-- Entries that end behind the start of the window and go on to its end. -/
theorem sum_clipped {start end_ lo hi : ℕ} {entries : List StackWrapper} (hwindow : start ≤ end_)
    (htiles : Tiles StackWrapper.startTs StackWrapper.endTs lo entries hi) (hhi : end_ ≤ hi)
    (hstart : ∀ e ∈ entries, start ≤ e.endTs) :
    ((entries.takeWhile fun e => e.startTs ≤ end_).map (clipped start end_)).sum =
      end_ - max start lo := by
  induction entries generalizing lo with
  | nil =>
      obtain rfl : lo = hi := htiles
      rw [List.takeWhile_nil, List.map_nil, List.sum_nil]
      omega
  | cons e entries ih =>
      obtain ⟨rfl, hproper, hrest⟩ := htiles
      have hend := hstart e List.mem_cons_self
      by_cases hin : e.startTs ≤ end_
      · have hclipped : clipped start end_ e = min end_ e.endTs - max start e.startTs :=
          subU64_of_le (by omega)
        rw [List.takeWhile_cons_of_pos (by simpa using hin), List.map_cons, List.sum_cons, hclipped,
          ih hrest fun other hmem => hstart other (List.mem_cons_of_mem _ hmem)]
        omega
      · rw [List.takeWhile_cons_of_neg (by simpa using hin), List.map_nil, List.sum_nil]
        omega

theorem InOrder.before {entries : List StackWrapper} (h : InOrder entries) (t : ℕ) :
    entries.Pairwise fun a b => before t b = true → before t a = true :=
  h.sorted.imp fun hab hb => before_eq_true.mpr (hab.trans_lt (before_eq_true.mp hb))

theorem InOrder.le_startTs_of_mem_dropWhile {entries : List StackWrapper} (h : InOrder entries)
    (start : ℕ) : ∀ e ∈ entries.dropWhile (Stacks.before start), start ≤ e.startTs := by
  intro e he
  rw [SortedLists.dropWhile_eq_filter (h.before start), List.mem_filter] at he
  simpa [Stacks.before] using he.2

/-- The entries that a window is enumerated with do not end before its start. -/
theorem InOrder.le_endTs {start : ℕ} {entries : List StackWrapper} (h : InOrder entries)
    (hlast : ∀ back, entries.getLast? = some back → start ≤ back.endTs) :
    ∀ e ∈ searchBack (Stacks.before start) entries, start ≤ e.endTs := by
  have hdropped := h.le_startTs_of_mem_dropWhile start
  have hends : ∀ e ∈ entries.dropWhile (Stacks.before start), start ≤ e.endTs := fun e he =>
    (hdropped e he).trans (h.proper e ((List.dropWhile_suffix _).subset he))
  rcases searchBack_cases (h.before start) with ⟨htake, heq⟩ | ⟨pre, last, htake, heq⟩
  · rw [heq]
    rwa [dropWhile_of_takeWhile_nil htake] at hends
  · have hsplit := eq_append_of_takeWhile htake
    rw [heq]
    intro e he
    rcases List.mem_cons.mp he with rfl | he
    · -- the last entry before the window ends where the next one starts, if there is one
      cases hrest : entries.dropWhile (Stacks.before start) with
      | nil =>
          rw [hrest] at hsplit
          exact hlast e (by rw [hsplit, List.getLast?_concat])
      | cons next rest =>
          rw [hrest] at hsplit hdropped
          have hadjacent := h.adjacent
          rw [hsplit] at hadjacent
          have hlink := (List.isChain_append.mp hadjacent).2.1
          rw [(List.isChain_cons_cons.mp hlink).1]
          exact hdropped next List.mem_cons_self
    · exact hends e he

/-- Where the entries are in order and go on to the end of a window, the durations in the window
add up to the part of it that is not before the first entry. -/
theorem StacksBuilder.sum_enumerateStacks {b : StacksBuilder} {thread start end_ : ℕ}
    (h : InOrder (b.stacksOf thread)) (hwindow : start ≤ end_)
    (hlast : ∀ back, (b.stacksOf thread).getLast? = some back → end_ ≤ back.endTs)
    {first : StackWrapper} (hfirst : (b.stacksOf thread).head? = some first) :
    ((b.enumerateStacks thread start end_).map Prod.snd).sum = end_ - max start first.startTs := by
  have hends := h.le_endTs fun back hback => hwindow.trans (hlast back hback)
  obtain ⟨dropped, hdropped, hstart⟩ := trims_searchBack (h.before start)
  obtain ⟨lo, hi, htiles⟩ := inOrder_iff_tiles.mp
    (h.drop (partitionPoint (Stacks.before start) (b.stacksOf thread) - 1))
  rw [← searchBack] at htiles
  rw [map_snd_enumerateStacks]
  generalize searchBack (Stacks.before start) (b.stacksOf thread) = kept at *
  obtain ⟨pre, back, rfl⟩ : ∃ pre back, kept = pre ++ [back] := by
    rcases List.eq_nil_or_concat kept with rfl | ⟨pre, back, hconcat⟩
    · rcases hstart with rfl | ⟨first, hfirst, -⟩
      · rw [hdropped] at hfirst
        cases hfirst
      · cases hfirst
    · exact ⟨pre, back, hconcat.trans List.concat_eq_append⟩
  obtain ⟨mid, -, -, -, hback⟩ := tiles_append.mp htiles
  have hhi : end_ ≤ hi := by
    rw [← hback]
    refine hlast back ?_
    rw [hdropped, ← List.append_assoc, List.getLast?_concat]
  rw [sum_clipped hwindow htiles hhi hends]
  -- the search starts with the first entry, or with one that starts before the window
  obtain ⟨head, hhead⟩ : ∃ head, (pre ++ [back]).head? = some head := by
    cases pre with
    | nil => exact ⟨back, rfl⟩
    | cons head pre => exact ⟨head, rfl⟩
  have hlo : head.startTs = lo := htiles.first_of_head? hhead
  rcases hstart with rfl | ⟨head', hhead', hbefore⟩
  · rw [hdropped, List.nil_append, hhead] at hfirst
    obtain rfl := Option.some.inj hfirst
    rw [hlo]
  · obtain rfl : head' = head := Option.some.inj (hhead'.symm.trans hhead)
    have hle : first.startTs ≤ head'.startTs := by
      have hsorted := h.sorted
      rw [hdropped] at hfirst hsorted
      cases dropped with
      | nil => exact (congrArg StackWrapper.startTs
          (Option.some.inj (hfirst.symm.trans hhead))).le
      | cons first' dropped =>
          obtain rfl : first' = first := Option.some.inj hfirst
          exact (List.pairwise_cons.mp hsorted).1 head'
            (List.mem_append_right _ (List.mem_of_head? hhead))
    have hlt := before_eq_true.mp hbefore
    omega

/-- So they are no more than the window. -/
theorem StacksBuilder.sum_enumerateStacks_le {b : StacksBuilder} {thread start end_ : ℕ}
    (h : InOrder (b.stacksOf thread)) (hwindow : start ≤ end_)
    (hlast : ∀ back, (b.stacksOf thread).getLast? = some back → end_ ≤ back.endTs) :
    ((b.enumerateStacks thread start end_).map Prod.snd).sum ≤ end_ - start := by
  cases hfirst : (b.stacksOf thread).head? with
  | none =>
      rw [map_snd_enumerateStacks, List.head?_eq_none_iff.mp hfirst, searchBack_nil]
      exact Nat.zero_le _
  | some first =>
      rw [sum_enumerateStacks h hwindow hlast hfirst]
      omega

end TibeeCompare.Stacks
