import TibeeCompare.Stacks.StacksBuilder
import TibeeCompare.Lib.Intervals
import Mathlib.Data.List.Chain

/-!
The order of the entries of a thread: each entry ends where the next one starts.

Only the last entry is open. Moving its end, or putting a new entry behind it,
keeps the order exactly if the new end is not before its start.
-/

namespace TibeeCompare.Stacks

open Intervals

/-- The entries are sorted by their starts, none ends before it starts, and each
ends where the next one starts. -/
structure InOrder (entries : List StackWrapper) : Prop where
  sorted : entries.Pairwise fun a b => a.startTs ≤ b.startTs
  proper : ∀ e ∈ entries, e.startTs ≤ e.endTs
  adjacent : entries.IsChain fun a b => a.endTs = b.startTs

/-- The entries in order are those that tile some span of time. -/
theorem inOrder_iff_tiles {entries : List StackWrapper} :
    InOrder entries ↔
      ∃ lo hi, Tiles StackWrapper.startTs StackWrapper.endTs lo entries hi := by
  constructor
  · rintro ⟨-, hproper, hadjacent⟩
    induction entries with
    | nil => exact ⟨0, 0, rfl⟩
    | cons e rest ih =>
        obtain ⟨lo, hi, htiles⟩ := ih (fun e' he' => hproper e' (List.mem_cons_of_mem _ he'))
          hadjacent.tail
        have he := hproper e List.mem_cons_self
        cases rest with
        | nil => exact ⟨e.startTs, e.endTs, rfl, he, rfl⟩
        | cons e' rest =>
            have hlo : e.endTs = lo := (List.isChain_cons_cons.mp hadjacent).1.trans htiles.1
            exact ⟨e.startTs, hi, rfl, he, hlo ▸ htiles⟩
  · rintro ⟨lo, hi, htiles⟩
    refine ⟨?_, fun e he => (htiles.ordered.bounds he).2.1, ?_⟩
    · refine List.Pairwise.imp_of_mem ?_ htiles.ordered.pairwise
      intro a b ha hb hab
      exact (htiles.ordered.bounds ha).2.1.trans hab
    · induction entries generalizing lo with
      | nil => exact List.IsChain.nil
      | cons e rest ih =>
          obtain ⟨-, -, hrest⟩ := htiles
          have hchain := ih _ hrest
          cases rest with
          | nil => exact List.IsChain.singleton e
          | cons e' rest => exact List.isChain_cons_cons.mpr ⟨hrest.1.symm, hchain⟩

theorem inOrder_append_singleton {entries : List StackWrapper} {e : StackWrapper} :
    InOrder (entries ++ [e]) ↔ InOrder entries ∧ e.startTs ≤ e.endTs ∧
      ∀ back, entries.getLast? = some back → back.endTs = e.startTs := by
  constructor
  · rintro ⟨hsorted, hproper, hadjacent⟩
    obtain ⟨hchain, -, hlink⟩ := List.isChain_append.mp hadjacent
    exact ⟨⟨(List.pairwise_append.mp hsorted).1, fun a ha => hproper a (by simp [ha]), hchain⟩,
      hproper e (by simp), fun back hback => hlink back hback e rfl⟩
  · rintro ⟨hentries, he, hlink⟩
    obtain ⟨lo, hi, htiles⟩ := inOrder_iff_tiles.mp hentries
    refine inOrder_iff_tiles.mpr ?_
    rcases List.eq_nil_or_concat entries with rfl | ⟨pre, back, rfl⟩
    · exact ⟨e.startTs, e.endTs, rfl, he, rfl⟩
    · rw [List.concat_eq_append] at hlink htiles ⊢
      have hhi : back.endTs = hi := by
        obtain ⟨mid, -, -, -, hback⟩ := tiles_append.mp htiles
        exact hback
      have hstart := hlink back List.getLast?_concat
      exact ⟨lo, e.endTs, tiles_append.mpr ⟨hi, htiles, hhi ▸ hstart.symm, he, rfl⟩⟩

/-- No entry that is still open starts after `ts`. -/
def StartsBy (ts : ℕ) (entries : List StackWrapper) : Prop :=
  ∀ back, entries.getLast? = some back → back.startTs ≤ ts

theorem StartsBy.mono {ts ts' : ℕ} {entries : List StackWrapper} (h : StartsBy ts entries)
    (hts : ts ≤ ts') : StartsBy ts' entries := fun back hback => (h back hback).trans hts

/-! ### Moving the end -/

@[simp] theorem closeBack_nil (ts : ℕ) : closeBack ts [] = [] := rfl

@[simp] theorem closeBack_concat (ts : ℕ) (entries : List StackWrapper) (back : StackWrapper) :
    closeBack ts (entries ++ [back]) = entries ++ [{ back with endTs := ts }] := by
  rw [closeBack, List.getLast?_concat, List.dropLast_concat]

theorem closeBack_closeBack (ts ts' : ℕ) (entries : List StackWrapper) :
    closeBack ts' (closeBack ts entries) = closeBack ts' entries := by
  rcases List.eq_nil_or_concat entries with rfl | ⟨pre, back, rfl⟩
  · rfl
  · simp

theorem inOrder_closeBack {ts : ℕ} {entries : List StackWrapper} (h : InOrder entries) :
    InOrder (closeBack ts entries) ↔ StartsBy ts entries := by
  rcases List.eq_nil_or_concat entries with rfl | ⟨pre, back, rfl⟩
  · exact ⟨fun _ back hback => (by cases hback), fun _ => h⟩
  · rw [List.concat_eq_append] at h ⊢
    obtain ⟨hpre, -, hlink⟩ := inOrder_append_singleton.mp h
    rw [closeBack_concat, inOrder_append_singleton]
    simp only [StartsBy, List.getLast?_concat, Option.some.injEq, forall_eq']
    exact ⟨fun h => h.2.1, fun hts => ⟨hpre, hts, hlink⟩⟩

/-- A new entry at the current time is in order behind any entries in order. -/
theorem inOrder_setEntry {ts : ℕ} {stackId : StackId} {isSyscall : Bool}
    {entries : List StackWrapper} :
    InOrder (setEntry ts stackId isSyscall entries) ↔ InOrder (closeBack ts entries) := by
  rw [setEntry]
  split
  · rfl
  · rw [inOrder_append_singleton]
    refine ⟨fun h => h.1, fun h => ⟨h, le_rfl, ?_⟩⟩
    intro back hback
    rcases List.eq_nil_or_concat entries with rfl | ⟨pre, last, rfl⟩
    · cases hback
    · rw [List.concat_eq_append, closeBack_concat, List.getLast?_concat] at hback
      obtain rfl := Option.some.inj hback
      rfl

@[simp] theorem getLast?_closeBack (ts : ℕ) (entries : List StackWrapper) :
    (closeBack ts entries).getLast? =
      entries.getLast?.map fun back => { back with endTs := ts } := by
  rcases List.eq_nil_or_concat entries with rfl | ⟨pre, last, rfl⟩
  · rfl
  · rw [List.concat_eq_append, closeBack_concat, List.getLast?_concat, List.getLast?_concat]
    rfl

theorem startsBy_closeBack {ts ts' : ℕ} {entries : List StackWrapper} :
    StartsBy ts' (closeBack ts entries) ↔ StartsBy ts' entries := by
  rw [StartsBy, StartsBy, getLast?_closeBack]
  constructor
  · intro h back hback
    exact h { back with endTs := ts } (by rw [hback]; rfl)
  · intro h back hback
    obtain ⟨last, hlast, rfl⟩ := Option.map_eq_some_iff.mp hback
    exact h last hlast

/-- Either the last entry has the stack already, or a new one is put behind it. -/
theorem setEntry_cases (ts : ℕ) (stackId : StackId) (isSyscall : Bool)
    (entries : List StackWrapper) :
    (∃ back, entries.getLast? = some back ∧ back.stackId = stackId ∧
      setEntry ts stackId isSyscall entries = closeBack ts entries) ∨
    ((∀ back, entries.getLast? = some back → back.stackId ≠ stackId) ∧
      setEntry ts stackId isSyscall entries =
        closeBack ts entries ++ [⟨stackId, ts, ts, isSyscall, false⟩]) := by
  cases hback : entries.getLast? with
  | none =>
      refine .inr ⟨fun _ h => (by cases h), ?_⟩
      simp [setEntry, hback]
  | some back =>
      by_cases hid : back.stackId = stackId
      · refine .inl ⟨back, rfl, hid, ?_⟩
        simp [setEntry, hback, hid]
      · refine .inr ⟨?_, ?_⟩
        · rintro _ ⟨⟩
          exact hid
        · simp [setEntry, hback, hid]

theorem startsBy_setEntry {ts ts' : ℕ} (hle : ts ≤ ts') {stackId : StackId} {isSyscall : Bool}
    {entries : List StackWrapper} (h : StartsBy ts' entries) :
    StartsBy ts' (setEntry ts stackId isSyscall entries) := by
  rcases setEntry_cases ts stackId isSyscall entries with ⟨-, -, -, heq⟩ | ⟨-, heq⟩
  · rw [heq]
    exact startsBy_closeBack.mpr h
  · intro back hback
    rw [heq, List.getLast?_concat] at hback
    obtain rfl := Option.some.inj hback
    exact hle

theorem InOrder.drop {entries : List StackWrapper} (h : InOrder entries) (n : ℕ) :
    InOrder (entries.drop n) where
  sorted := h.sorted.sublist (List.drop_sublist n entries)
  proper e he := h.proper e (List.mem_of_mem_drop he)
  adjacent := h.adjacent.suffix (List.drop_suffix n entries)

theorem StartsBy.drop {ts : ℕ} {entries : List StackWrapper} (h : StartsBy ts entries) (n : ℕ) :
    StartsBy ts (entries.drop n) := by
  intro back hback
  rw [List.getLast?_drop] at hback
  split at hback
  · cases hback
  · exact h back hback

/-! ### Entries with the same times -/

def StackWrapper.times (e : StackWrapper) : ℕ × ℕ := (e.startTs, e.endTs)

/-- An element in the place of another one that a function does not tell from it. -/
theorem map_set_eq {α β : Type} {f : α → β} {l : List α} {i : ℕ} {a a' : α} (ha : l[i]? = some a)
    (h : f a' = f a) : (l.set i a').map f = l.map f := by
  have hget : (l.map f)[i]? = some (f a') := by
    rw [List.getElem?_map, ha, h]
    rfl
  obtain ⟨hlt, hget⟩ := List.getElem?_eq_some_iff.mp hget
  rw [List.map_set, ← hget, List.set_getElem_self]

theorem InOrder.of_times {entries entries' : List StackWrapper} (h : InOrder entries)
    (htimes : entries'.map StackWrapper.times = entries.map StackWrapper.times) :
    InOrder entries' := by
  have hpairwise : (entries.map StackWrapper.times).Pairwise fun a b => a.1 ≤ b.1 :=
    List.pairwise_map.mpr h.sorted
  have hchain : (entries.map StackWrapper.times).IsChain fun a b => a.2 = b.1 :=
    List.isChain_map _ |>.mpr h.adjacent
  have hproper : ∀ times ∈ entries.map StackWrapper.times, times.1 ≤ times.2 := by
    intro times hmem
    obtain ⟨e, he, rfl⟩ := List.mem_map.mp hmem
    exact h.proper e he
  rw [← htimes] at hpairwise hchain hproper
  exact ⟨(List.pairwise_map (f := StackWrapper.times)).mp hpairwise,
    fun e he => hproper _ (List.mem_map_of_mem he), (List.isChain_map _).mp hchain⟩

theorem StartsBy.of_times {ts : ℕ} {entries entries' : List StackWrapper}
    (h : StartsBy ts entries)
    (htimes : entries'.map StackWrapper.times = entries.map StackWrapper.times) :
    StartsBy ts entries' := by
  intro back hback
  have hlast := congrArg List.getLast? htimes
  rw [List.getLast?_map, List.getLast?_map, hback] at hlast
  obtain ⟨back', hback', htimes'⟩ := Option.map_eq_some_iff.mp hlast.symm
  have hstart : back'.startTs = back.startTs := congrArg Prod.fst htimes'
  exact hstart ▸ h back' hback'

/-! ### What an operation does to a thread -/

/-- A new stack keeps the entries in order where none of them starts later. -/
theorem InOrder.setEntry {ts : ℕ} {entries : List StackWrapper} (h : InOrder entries)
    (hts : StartsBy ts entries) (stackId : StackId) (isSyscall : Bool) :
    InOrder (setEntry ts stackId isSyscall entries) ∧
      StartsBy ts (setEntry ts stackId isSyscall entries) :=
  ⟨inOrder_setEntry.mpr ((inOrder_closeBack h).mpr hts), startsBy_setEntry le_rfl hts⟩

/-- What the operations on a thread do to its entries when the clock is at `ts`. -/
inductive Effect (ts : ℕ) (entries : List StackWrapper) : List StackWrapper → Prop
  | set (stackId : StackId) (isSyscall : Bool) :
      Effect ts entries (setEntry ts stackId isSyscall entries)
  | sameTimes {entries' : List StackWrapper}
      (h : entries'.map StackWrapper.times = entries.map StackWrapper.times) :
      Effect ts entries entries'

theorem Effect.refl (ts : ℕ) (entries : List StackWrapper) : Effect ts entries entries :=
  .sameTimes rfl

theorem Effect.inOrder {ts : ℕ} {entries entries' : List StackWrapper}
    (h : Effect ts entries entries') (horder : InOrder entries) (hts : StartsBy ts entries) :
    InOrder entries' ∧ StartsBy ts entries' := by
  cases h with
  | set stackId isSyscall =>
      exact horder.setEntry hts stackId isSyscall
  | sameTimes h => exact ⟨horder.of_times h, hts.of_times h⟩

namespace StacksBuilder

/-- `b'` is `b` with another vector for one thread. -/
theorem updateThread_self (b : StacksBuilder) (thread : ℕ) :
    b.updateThread thread (b.stacksOf thread) = b := by
  rw [updateThread, Function.update_eq_self]

theorem updateThread_of_ne (b : StacksBuilder) {thread thread' : ℕ} (h : thread' ≠ thread)
    (entries : List StackWrapper) :
    (b.updateThread thread entries).stacksOf thread' = b.stacksOf thread' :=
  Function.update_of_ne h _ _

@[simp] theorem stacksOf_updateThread (b : StacksBuilder) (thread : ℕ)
    (entries : List StackWrapper) : (b.updateThread thread entries).stacksOf thread = entries :=
  Function.update_self ..

@[simp] theorem updateThread_updateThread (b : StacksBuilder) (thread : ℕ)
    (entries entries' : List StackWrapper) :
    (b.updateThread thread entries).updateThread thread entries' =
      b.updateThread thread entries' := by
  simp [updateThread]

/-- The end of a system call changes nothing, unless the last entry is one. -/
theorem endSytemCall_ok {b b' : StacksBuilder} {thread : ℕ} {db db' : Db.Database}
    (h : (b.endSytemCall thread).runOn db = (.ok b', db')) :
    (b' = b ∧ ∀ back, (b.stacksOf thread).getLast? = some back → back.isSyscall = false) ∨
      ∃ back stackId isSyscall, (b.stacksOf thread).getLast? = some back ∧
        back.isSyscall = true ∧ b' = b.setStack thread stackId isSyscall := by
  rw [endSytemCall] at h
  cases hback : (b.stacksOf thread).getLast? with
  | none =>
      rw [hback] at h
      cases h
      exact .inl ⟨rfl, fun _ h => (by cases h)⟩
  | some back =>
      rw [hback] at h
      cases hsyscall : back.isSyscall with
      | false =>
          simp only [hsyscall, Bool.not_false, if_true] at h
          cases h
          refine .inl ⟨rfl, ?_⟩
          rintro _ ⟨⟩
          exact hsyscall
      | true =>
          simp only [hsyscall, Bool.not_true, Bool.false_eq_true, if_false] at h
          refine .inr ⟨back, ?_⟩
          cases hprevious : (b.stacksOf thread).dropLast.getLast? with
          | none =>
              rw [hprevious] at h
              obtain ⟨stackId, -, rfl⟩ := Db.DbM.runOn_map_eq_ok.mp h
              exact ⟨stackId, true, rfl, hsyscall, rfl⟩
          | some previous =>
              rw [hprevious] at h
              cases h
              exact ⟨previous.stackId, false, rfl, hsyscall, rfl⟩

/-- A new stack for a system call leaves all times alone. -/
theorem setLastSystemCallStack_ok {b b' : StacksBuilder} {thread : ℕ} {stackId : StackId}
    {db db' : Db.Database}
    (h : (b.setLastSystemCallStack thread stackId).runOn db = (.ok b', db')) :
    ∃ entries, b' = b.updateThread thread entries ∧
      entries.map StackWrapper.times = (b.stacksOf thread).map StackWrapper.times := by
  have hsame : ∃ entries, b = b.updateThread thread entries ∧
      entries.map StackWrapper.times = (b.stacksOf thread).map StackWrapper.times :=
    ⟨_, (updateThread_self b thread).symm, rfl⟩
  rw [setLastSystemCallStack] at h
  cases hfound : (lastLongSyscall (b.stacksOf thread)).bind fun i =>
      ((b.stacksOf thread)[i]?).map (i, ·) with
  | none =>
      rw [hfound] at h
      cases h
      exact hsame
  | some found =>
      rcases found with ⟨i, entry⟩
      rw [hfound] at h
      cases hresolved : entry.isResolved with
      | true =>
          simp only [hresolved, if_true] at h
          cases h
          exact hsame
      | false =>
          simp only [hresolved, Bool.false_eq_true, if_false] at h
          obtain ⟨syscallOnlyStack, mid, -, h⟩ := Db.DbM.runOn_bind_eq_ok.mp h
          obtain ⟨syscallFullStack, -, rfl⟩ := Db.DbM.runOn_map_eq_ok.mp h
          refine ⟨_, rfl, ?_⟩
          obtain ⟨j, -, hj⟩ := Option.bind_eq_some_iff.mp hfound
          obtain ⟨e, he, hpair⟩ := Option.map_eq_some_iff.mp hj
          obtain ⟨rfl, rfl⟩ := Prod.mk.inj hpair
          exact map_set_eq he rfl

end StacksBuilder

end TibeeCompare.Stacks
