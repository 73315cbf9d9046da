import TibeeCompare.State.StateHistory
import TibeeCompare.Lib.Intervals
import TibeeCompare.Lib.SortedLists
import Mathlib.Data.List.Induction

/-!
The entries of one key.

They are the values that the key was set to, in order, without those that repeat the
last one. A search by time finds the last of them that is not later, and a scan of a
window cuts it where the next one starts.
-/

namespace TibeeCompare.State

open Timelines Intervals SortedLists

variable {V : Type}

/-- Entries in the order of time. -/
def Sorted (entries : List (Entry V)) : Prop := entries.Pairwise fun a b => a.ts ≤ b.ts

/-- The value of the last entry at or before `t`. -/
def lastSet (t : ℕ) (entries : List (Entry V)) : Option V :=
  ((entries.filter fun e => e.ts ≤ t).getLast?).map Entry.value

/-- The entries that a key has after it was set to some values. -/
def recorded [DecidableEq V] (sets : List (Entry V)) : List (Entry V) :=
  sets.foldl (fun entries e => setValue e.ts e.value entries) []

/-! ### What is recorded -/

@[simp] theorem atOrBefore_eq_true {t : ℕ} {e : Entry V} : atOrBefore t e = true ↔ e.ts ≤ t := by
  simp [atOrBefore]

@[simp] theorem before_eq_true {t : ℕ} {e : Entry V} : before t e = true ↔ e.ts < t := by
  simp [before]

theorem Sorted.atOrBefore {entries : List (Entry V)} (h : Sorted entries) (t : ℕ) :
    entries.Pairwise fun a b => atOrBefore t b = true → atOrBefore t a = true :=
  h.imp fun hab hb => atOrBefore_eq_true.mpr (hab.trans (atOrBefore_eq_true.mp hb))

theorem Sorted.before {entries : List (Entry V)} (h : Sorted entries) (t : ℕ) :
    entries.Pairwise fun a b => before t b = true → before t a = true :=
  h.imp fun hab hb => before_eq_true.mpr (hab.trans_lt (before_eq_true.mp hb))

section Recorded

variable [DecidableEq V]

theorem recorded_append (sets : List (Entry V)) (e : Entry V) :
    recorded (sets ++ [e]) = setValue e.ts e.value (recorded sets) := List.foldl_append

theorem setValue_cases (ts : ℕ) (value : V) (entries : List (Entry V)) :
    (entries.getLast?.map Entry.value = some value ∧ setValue ts value entries = entries) ∨
      setValue ts value entries = entries ++ [⟨ts, value⟩] := by
  rw [setValue]
  split
  · next h => exact Or.inl ⟨h, rfl⟩
  · exact Or.inr rfl

theorem recorded_sublist (sets : List (Entry V)) : List.Sublist (recorded sets) sets := by
  induction sets using List.reverseRecOn with
  | nil => exact List.Sublist.refl _
  | append_singleton sets e ih =>
      rw [recorded_append]
      rcases setValue_cases e.ts e.value (recorded sets) with ⟨-, heq⟩ | heq
      · rw [heq]
        exact ih.trans (List.sublist_append_left _ _)
      · rw [heq]
        exact ih.append_right _

theorem sorted_recorded {sets : List (Entry V)} (h : Sorted sets) : Sorted (recorded sets) :=
  List.Pairwise.sublist (recorded_sublist sets) h

theorem getLast?_recorded (sets : List (Entry V)) :
    (recorded sets).getLast?.map Entry.value = sets.getLast?.map Entry.value := by
  induction sets using List.reverseRecOn with
  | nil => rfl
  | append_singleton sets e ih =>
      rw [recorded_append, List.getLast?_concat]
      rcases setValue_cases e.ts e.value (recorded sets) with ⟨hlast, heq⟩ | heq
      · rw [heq, hlast]
        rfl
      · rw [heq, List.getLast?_concat]

/-- The first set is never a repetition. -/
theorem head?_recorded (sets : List (Entry V)) : (recorded sets).head? = sets.head? := by
  induction sets using List.reverseRecOn with
  | nil => rfl
  | append_singleton sets e ih =>
      rw [recorded_append, List.head?_append, ← ih]
      rcases setValue_cases e.ts e.value (recorded sets) with ⟨hlast, heq⟩ | heq
      · rw [heq]
        cases hrecorded : recorded sets with
        | nil => rw [hrecorded] at hlast; cases hlast
        | cons first rest => rfl
      · rw [heq, List.head?_append]

/-- Nothing that a search by time asks for is lost with the repetitions. -/
theorem lastSet_recorded {sets : List (Entry V)} (h : Sorted sets) (t : ℕ) :
    lastSet t (recorded sets) = lastSet t sets := by
  induction sets using List.reverseRecOn with
  | nil => rfl
  | append_singleton sets e ih =>
      by_cases ht : e.ts ≤ t
      · -- all sets are at or before `t`
        have hall : ∀ a ∈ sets ++ [e], a.ts ≤ t := by
          intro a ha
          rcases List.mem_append.mp ha with ha | ha
          · exact ((List.pairwise_append.mp h).2.2 a ha e (List.mem_singleton_self e)).trans ht
          · rw [List.mem_singleton.mp ha]
            exact ht
        have hfilter : ∀ {entries : List (Entry V)}, List.Sublist entries (sets ++ [e]) →
            (entries.filter fun a => a.ts ≤ t) = entries := fun hsub =>
          List.filter_eq_self.mpr fun a ha => decide_eq_true (hall a (hsub.mem ha))
        rw [lastSet, lastSet, hfilter (recorded_sublist _), hfilter (List.Sublist.refl _),
          getLast?_recorded]
      · have hsets := ih (List.pairwise_append.mp h).1
        have hskip : ∀ entries : List (Entry V), lastSet t (entries ++ [e]) =
            lastSet t entries := by
          intro entries
          simp [lastSet, ht]
        rw [recorded_append, hskip, ← hsets]
        rcases setValue_cases e.ts e.value (recorded sets) with ⟨-, heq⟩ | heq
        · rw [heq]
        · rw [heq]
          exact hskip _

end Recorded

/-! ### Reading -/

/-- What a search by time passes by, up to the entry that it steps back to. -/
theorem searchBack_atOrBefore {entries : List (Entry V)} (h : Sorted entries) (t : ℕ) :
    ((∀ e ∈ entries, t < e.ts) ∧ entriesFrom t entries = entries) ∨
      ∃ pre last rest, entries = pre ++ last :: rest ∧ last.ts ≤ t ∧ (∀ e ∈ rest, t < e.ts) ∧
        entriesFrom t entries = last :: rest := by
  have hrest : ∀ e ∈ entries.dropWhile (State.atOrBefore t), t < e.ts := by
    intro e he
    rw [dropWhile_eq_filter (h.atOrBefore t)] at he
    simpa [State.atOrBefore] using (List.mem_filter.mp he).2
  rcases searchBack_cases (h.atOrBefore t) with ⟨hnil, heq⟩ | ⟨pre, last, htake, heq⟩
  · rw [dropWhile_of_takeWhile_nil hnil] at hrest
    exact Or.inl ⟨hrest, heq⟩
  · exact Or.inr ⟨pre, last, _, eq_append_of_takeWhile htake,
      atOrBefore_eq_true.mp (holds_of_takeWhile htake), hrest, heq⟩

theorem lastSet_append_cons {pre rest : List (Entry V)} {last : Entry V} {t : ℕ} (hle : last.ts ≤ t)
    (hrest : ∀ e ∈ rest, t < e.ts) : lastSet t (pre ++ last :: rest) = some last.value := by
  have hnone : (rest.filter fun e => e.ts ≤ t) = [] :=
    List.filter_eq_nil_iff.mpr fun e he => by simpa using hrest e he
  simp [lastSet, List.filter_append, hle, hnone]

/-- A search finds the last entry at or before `t`. -/
theorem getValue_eq {entries : List (Entry V)} (h : Sorted entries) (t : ℕ) :
    getValue t entries = lastSet t entries := by
  rw [getValue]
  rcases searchBack_atOrBefore h t with ⟨hall, heq⟩ | ⟨pre, last, rest, rfl, hle, hrest, heq⟩
  · have hnone : (entries.filter fun e => e.ts ≤ t) = [] :=
      List.filter_eq_nil_iff.mpr fun e he => by simpa using hall e he
    rw [heq, lastSet, hnone]
    cases entries with
    | nil => rfl
    | cons e rest => simp [Nat.not_le.mpr (hall e List.mem_cons_self)]
  · rw [heq, lastSet_append_cons hle hrest]
    simp [hle]

/-- The scan of a window from an entry that starts before its end. -/
theorem intervalsFrom_tiles {start end_ : ℕ} (hwindow : start < end_) {e : Entry V}
    {rest : List (Entry V)} (hsorted : Sorted (e :: rest)) (hrest : ∀ a ∈ rest, start ≤ a.ts)
    (hend : e.ts < end_) :
    Tiles (fun i => i.2.1) (fun i => i.2.2) (max e.ts start) (intervalsFrom start end_ (e :: rest))
      end_ := by
  induction rest generalizing e with
  | nil =>
      rw [intervalsFrom, if_neg (Nat.not_le.mpr hend)]
      exact ⟨rfl, Nat.max_le.mpr ⟨hend.le, hwindow.le⟩, rfl⟩
  | cons next rest ih =>
      obtain ⟨he, hsorted'⟩ := List.pairwise_cons.mp hsorted
      have hnext := he next List.mem_cons_self
      have hstart := hrest next List.mem_cons_self
      rw [intervalsFrom, if_neg (Nat.not_le.mpr hend)]
      refine ⟨rfl, ?_, ?_⟩
      · show max e.ts start ≤ min next.ts end_
        omega
      · show Tiles _ _ (min next.ts end_) _ _
        by_cases hbehind : end_ ≤ next.ts
        · rw [intervalsFrom, if_pos hbehind]
          exact Nat.min_eq_right hbehind
        · have htiles := ih hsorted' (fun a ha => hrest a (List.mem_cons_of_mem _ ha))
            (Nat.lt_of_not_le hbehind)
          rwa [Nat.max_eq_left hstart, ← Nat.min_eq_left (Nat.le_of_not_le hbehind)] at htiles

/-- Inside an interval of a scan, a search finds its value. -/
theorem lastSet_of_mem_intervalsFrom {start end_ : ℕ} {pre entries : List (Entry V)}
    (hsorted : Sorted (pre ++ entries)) {i : V × ℕ × ℕ}
    (hi : i ∈ intervalsFrom start end_ entries) {t : ℕ} (hfirst : i.2.1 ≤ t) (hlast : t < i.2.2) :
    lastSet t (pre ++ entries) = some i.1 := by
  induction entries generalizing pre with
  | nil => cases hi
  | cons e rest ih =>
      rw [intervalsFrom] at hi
      split at hi
      · cases hi
      · rcases List.mem_cons.mp hi with rfl | hi
        · refine lastSet_append_cons ((Nat.le_max_left _ _).trans hfirst) fun a ha => ?_
          cases rest with
          | nil => cases ha
          | cons next rest =>
              have hnext : t < next.ts := hlast.trans_le (Nat.min_le_left _ _)
              rcases List.mem_cons.mp ha with rfl | ha
              · exact hnext
              · have hrest := (List.pairwise_append.mp hsorted).2.1.of_cons
                exact hnext.trans_le ((List.pairwise_cons.mp hrest).1 a ha)
        · have hsorted' : Sorted ((pre ++ [e]) ++ rest) := by simpa using hsorted
          simpa using ih hsorted' hi

/-- The answer to the scan of a window: intervals that tile it from the first entry on,
each with the value that a search finds inside it. -/
structure TilesWindow (entries : List (Entry V)) (start end_ : ℕ) (intervals : List (V × ℕ × ℕ)) :
    Prop where
  none : (∀ first, entries.head? = some first → end_ ≤ first.ts) → intervals = []
  tiles : ∀ first, entries.head? = some first → first.ts < end_ →
    Tiles (fun i => i.2.1) (fun i => i.2.2) (max start first.ts) intervals end_
  values : ∀ i ∈ intervals, ∀ t, i.2.1 ≤ t → t < i.2.2 → lastSet t entries = some i.1

theorem enumerateValues_tilesWindow {entries : List (Entry V)} (h : Sorted entries) {start end_ : ℕ}
    (hwindow : start < end_) :
    TilesWindow entries start end_ (enumerateValues start end_ entries) := by
  -- the entries are in order, so that the head is the earliest one
  have hfirst : ∀ first ∈ entries.head?, ∀ e ∈ entries, first.ts ≤ e.ts := by
    cases entries with
    | nil => exact fun _ h => (by cases h)
    | cons e rest =>
        rintro _ ⟨⟩ a ha
        rcases List.mem_cons.mp ha with rfl | ha
        · exact le_rfl
        · exact (List.pairwise_cons.mp h).1 a ha
  have hsuffix : entriesFrom start entries <:+ entries := searchBack_suffix _ _
  rw [enumerateValues]
  refine ⟨?_, ?_, ?_⟩
  · intro hlate
    cases hscan : entriesFrom start entries with
    | nil => rfl
    | cons e rest =>
        have he : e ∈ entries := hsuffix.subset (hscan ▸ List.mem_cons_self)
        cases hhead : entries.head? with
        | none => rw [List.head?_eq_none_iff.mp hhead] at he; cases he
        | some first =>
            rw [intervalsFrom, if_pos ((hlate first hhead).trans (hfirst first hhead e he))]
  · intro first hhead hbefore
    -- the search stops at the entry that holds at the start, or at the first of all
    rcases searchBack_atOrBefore h start with ⟨hall, heq⟩ | ⟨pre, last, rest, rfl, hle, hrest, heq⟩
    · cases entries with
      | nil => cases hhead
      | cons e rest =>
          obtain rfl := Option.some.inj hhead
          rw [heq, Nat.max_comm]
          exact intervalsFrom_tiles hwindow h
            (fun a ha => (hall a (List.mem_cons_of_mem _ ha)).le) hbefore
    · have hfirst := hfirst first hhead last (by simp)
      have hmax : max start first.ts = max last.ts start := by omega
      rw [heq, hmax]
      exact intervalsFrom_tiles hwindow (List.pairwise_append.mp h).2.1
        (fun a ha => (hrest a ha).le) (hle.trans_lt hwindow)
  · intro i hi t hfirst hlast
    obtain ⟨pre, hsplit⟩ := hsuffix
    have hsorted : Sorted (pre ++ entriesFrom start entries) := by rwa [hsplit]
    rw [← hsplit]
    exact lastSet_of_mem_intervalsFrom hsorted hi hfirst hlast

/-- The intervals of a scan do not overlap, also if the window is empty. -/
theorem intervalsFrom_ordered {start end_ : ℕ} (hwindow : start ≤ end_) {entries : List (Entry V)}
    (hsorted : Sorted entries) (htail : ∀ a ∈ entries.tail, start ≤ a.ts) {lo : ℕ} (hlo : lo ≤ end_)
    (hhead : ∀ e ∈ entries.head?, lo ≤ max e.ts start) :
    Ordered (fun i => i.2.1) (fun i => i.2.2) lo (intervalsFrom start end_ entries) end_ := by
  induction entries generalizing lo with
  | nil => exact hlo
  | cons e rest ih =>
      rw [intervalsFrom]
      split
      · exact hlo
      · next hend =>
          refine ⟨hhead e rfl, ?_, ?_⟩
          · show max e.ts start ≤ _
            cases rest with
            | nil =>
                dsimp only [List.head?_nil]
                omega
            | cons next rest =>
                have hnext : e.ts ≤ next.ts := (List.pairwise_cons.mp hsorted).1 next
                  List.mem_cons_self
                have hstart : start ≤ next.ts := htail next List.mem_cons_self
                dsimp only [List.head?_cons]
                omega
          · apply ih hsorted.of_cons
            · intro a ha
              exact htail a (List.mem_of_mem_tail ha)
            · cases rest with
              | nil => exact le_rfl
              | cons next rest => exact Nat.min_le_right _ _
            · intro next hnext
              rw [hnext]
              exact (Nat.min_le_left _ _).trans (Nat.le_max_left _ _)

theorem enumerateValues_ordered {entries : List (Entry V)} (h : Sorted entries) {start end_ : ℕ}
    (hwindow : start ≤ end_) :
    Ordered (fun i => i.2.1) (fun i => i.2.2) start (enumerateValues start end_ entries) end_ := by
  have hsuffix : entriesFrom start entries <:+ entries := searchBack_suffix _ _
  apply intervalsFrom_ordered hwindow (h.sublist hsuffix.sublist) ?_ hwindow
  · exact fun e _ => Nat.le_max_right _ _
  · intro a ha
    rcases searchBack_atOrBefore h start with ⟨hall, heq⟩ | ⟨pre, last, rest, -, -, hrest, heq⟩
    · rw [heq] at ha
      exact (hall a (List.mem_of_mem_tail ha)).le
    · rw [heq] at ha
      exact (hrest a ha).le

end TibeeCompare.State
