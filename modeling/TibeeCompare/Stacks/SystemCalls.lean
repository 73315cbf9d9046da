import TibeeCompare.Stacks.Runs
import TibeeCompare.Db.Interned

/-!
What the end of a system call goes back to.

`EndSytemCall` goes back to the entry before the last one. That is the stack that the thread
was seen with before the system call as long as the last entry is the system call and the one
before it is not: a system call whose end is missing stays on top of the user stack, and the
end of the next one goes back to it.
-/

namespace TibeeCompare.Stacks

open Db

/-- Calls that follow a thread through a trace: stacks that it was seen with, and system calls
that start and end. -/
def Op.followsThread : Op → Bool
  | setTimestamp _ | setStackNames _ _ | startSystemCall _ _ | endSytemCall _ => true
  | setStack _ _ isSyscall => !isSyscall
  | setNoStack _ | setLastSystemCallStack _ _ | setLastSystemCallStackNames _ _ | terminate
  | cleanup _ => false

def Op.thread? : Op → Option ℕ
  | setStack thread _ _ | setStackNames thread _ | setNoStack thread | startSystemCall thread _
  | endSytemCall thread | setLastSystemCallStack thread _ | setLastSystemCallStackNames thread _ =>
      some thread
  | setTimestamp _ | terminate | cleanup _ => none

/-- The operation is a `SetStack` with a stack of the user. -/
def Op.setsUserStack : Op → Bool
  | setStack _ _ isSyscall => !isSyscall
  | setStackNames _ _ => true
  | setTimestamp _ | setNoStack _ | startSystemCall _ _ | endSytemCall _
  | setLastSystemCallStack _ _ | setLastSystemCallStackNames _ _ | terminate | cleanup _ => false

/-! ### Following a thread -/

/-- What an entry was recorded for. -/
inductive EntryKind
  | user
  | syscall
  | noStack
deriving DecidableEq

structure Followed where
  /-- The stack that `SetStack` set last. -/
  userStack : Option StackId := none
  /-- What the entries were recorded for, and their stacks; the last entry first. -/
  levels : List (EntryKind × StackId) := []

/-- What an operation records a new entry for. The end of a system call records again what was
there before it. -/
def Op.entryKind (levels : List (EntryKind × StackId)) : Op → EntryKind
  | startSystemCall _ _ => .syscall
  | endSytemCall _ =>
      match levels with
      | _ :: previous :: _ => previous.1
      | _ => .noStack
  | _ => .user

/-- Follows a thread through an operation on it. A user stack that is the last one already
becomes one that was set by the user. -/
def Followed.step (op : Op) (thread : ℕ) (entries entries' : List StackWrapper) (f : Followed) :
    Followed :=
  match entries'.getLast? with
  | none => f
  | some back =>
      if op.thread? ≠ some thread then f
      else
        { userStack := if op.setsUserStack then some back.stackId else f.userStack
          levels :=
            if entries.length < entries'.length then
              (op.entryKind f.levels, back.stackId) :: f.levels
            else if op.setsUserStack then f.levels.modifyHead fun level => (.user, level.2)
            else f.levels }

/-- A run with its threads followed. -/
def followed (db : Database) (ops : List Op) :
    Except FatalError (StacksBuilder × (ℕ → Followed)) × Database :=
  watched Followed.step {} db ops

/-- The identifier of the stack 'No Stack'. -/
def noStackId (db : Database) : StackId :=
  match (DbM.runOn (StacksBuilder.getStackIdentifier [str "No Stack"]) db).1 with
  | .ok stackId => stackId
  | .error _ => kEmptyStackId

/-- The thread is in a system call, as `EndSytemCall` sees it. -/
def InSyscall (entries : List StackWrapper) : Prop :=
  entries.getLast?.map StackWrapper.isSyscall = some true

instance (entries : List StackWrapper) : Decidable (InSyscall entries) :=
  inferInstanceAs (Decidable (_ = _))

def Op.endsOn? : Op → Option ℕ
  | endSytemCall thread => some thread
  | _ => none

def currentStack (thread : ℕ) : Except FatalError StacksBuilder → Option StackId
  | .ok b => (b.stacksOf thread).getLast?.map StackWrapper.stackId
  | .error _ => none

/-- An `EndSytemCall` after a run, if it closes a system call, leaves the thread with the stack
that `SetStack` set last, or with 'No Stack'. -/
def RestoresAfter (thread : ℕ) :
    Except FatalError (StacksBuilder × (ℕ → Followed)) × Database → Prop
  | (.ok (b, notes), db) =>
      InSyscall (b.stacksOf thread) →
        currentStack thread (DbM.runOn (b.endSytemCall thread) db).1 =
          some ((notes thread).userStack.getD (noStackId db))
  | (.error _, _) => True

instance (thread : ℕ) : (r : Except FatalError (StacksBuilder × (ℕ → Followed)) × Database) →
    Decidable (RestoresAfter thread r)
  | (.ok (_, _), _) => inferInstanceAs (Decidable (_ → _))
  | (.error _, _) => isTrue trivial

/-- The last entry was recorded for a system call, the one before it was not. -/
def Followed.endsSyscall (f : Followed) : Bool :=
  match f.levels with
  | (.syscall, _) :: rest => rest.head?.map Prod.fst ≠ some .syscall
  | _ => false

/-- An `EndSytemCall` after a run, if it closes a system call, finds it in the last entry and
something else before it. -/
def MatchedAfter (thread : ℕ) :
    Except FatalError (StacksBuilder × (ℕ → Followed)) × Database → Prop
  | (.ok (b, notes), _) => InSyscall (b.stacksOf thread) → (notes thread).endsSyscall = true
  | (.error _, _) => True

instance (thread : ℕ) : (r : Except FatalError (StacksBuilder × (ℕ → Followed)) × Database) →
    Decidable (MatchedAfter thread r)
  | (.ok (_, _), _) => inferInstanceAs (Decidable (_ → _))
  | (.error _, _) => isTrue trivial

def EndsRestore (db : Database) (ops : List Op) : Prop :=
  ∀ n, (h : n < ops.length) → ∀ thread ∈ ops[n].endsOn?,
    RestoresAfter thread (followed db (ops.take n))

instance (db : Database) (ops : List Op) : Decidable (EndsRestore db ops) :=
  inferInstanceAs (Decidable (∀ n, (h : n < ops.length) → _))

def EndsMatched (db : Database) (ops : List Op) : Prop :=
  ∀ n, (h : n < ops.length) → ∀ thread ∈ ops[n].endsOn?,
    MatchedAfter thread (followed db (ops.take n))

instance (db : Database) (ops : List Op) : Decidable (EndsMatched db ops) :=
  inferInstanceAs (Decidable (∀ n, (h : n < ops.length) → _))

/-! ### One thread -/

def IsNoStack (db : Database) (stackId : StackId) : Prop :=
  (StacksBuilder.getStackIdentifier [str "No Stack"]).runOn db = (.ok stackId, db)

theorem getStackIdentifier_interns (stack : List Bytes) :
    Interns (StacksBuilder.getStackIdentifier stack) :=
  Interns.foldlM (fun _ _ => (addFunctionName_interns _).bind fun _ => addStack_interns _) _ _

theorem getStackIdentifier_returns (stack : List Bytes) :
    Returns (StacksBuilder.getStackIdentifier stack) :=
  Returns.foldlM (fun _ _ => (addFunctionName_returns _).bind fun _ => addStack_returns _) _ _

theorem IsNoStack.keeps {db db' : Database} {stackId : StackId} (h : IsNoStack db stackId)
    (hkeeps : Keeps db db') : IsNoStack db' stackId :=
  (getStackIdentifier_interns _ db stackId db h).2 db' hkeeps

theorem IsNoStack.noStackId_eq {db : Database} {stackId : StackId} (h : IsNoStack db stackId) :
    noStackId db = stackId := by
  rw [IsNoStack] at h
  rw [noStackId, h]

/-- What is known of the stack of an entry that was not recorded for a system call. -/
def Means (db : Database) (userStack : Option StackId) : EntryKind × StackId → Prop
  | (.user, stackId) => userStack = some stackId
  | (.noStack, stackId) => userStack = none ∧ IsNoStack db stackId
  | (.syscall, _) => True

/-- Under the system calls, a thread has the stack that `SetStack` set last. -/
def Told (db : Database) (userStack : Option StackId) : List (EntryKind × StackId) → Prop
  | [] => userStack = none
  | [(.syscall, _)] => userStack = none
  | (.syscall, _) :: level :: _ => Means db userStack level
  | level :: _ => Means db userStack level

structure Tracks (db : Database) (entries : List StackWrapper) (f : Followed) : Prop where
  levels : f.levels.map Prod.snd = (entries.map StackWrapper.stackId).reverse
  told : Told db f.userStack f.levels

theorem Means.keeps {db db' : Database} {userStack : Option StackId}
    {level : EntryKind × StackId} (h : Means db userStack level) (hkeeps : Keeps db db') :
    Means db' userStack level := by
  rcases level with ⟨kind, stackId⟩
  cases kind with
  | user => exact h
  | syscall => exact h
  | noStack => exact ⟨h.1, h.2.keeps hkeeps⟩

theorem Told.keeps {db db' : Database} {userStack : Option StackId}
    {levels : List (EntryKind × StackId)} (h : Told db userStack levels) (hkeeps : Keeps db db') :
    Told db' userStack levels := by
  rcases levels with _ | ⟨⟨_ | _ | _, stackId⟩, _ | ⟨level, rest⟩⟩
  · exact h
  · exact (show Means db userStack (.user, stackId) from h).keeps hkeeps
  · exact (show Means db userStack (.user, stackId) from h).keeps hkeeps
  · exact h
  · exact Means.keeps h hkeeps
  · exact (show Means db userStack (.noStack, stackId) from h).keeps hkeeps
  · exact (show Means db userStack (.noStack, stackId) from h).keeps hkeeps

theorem Told.startSyscall {db : Database} {userStack : Option StackId}
    {levels : List (EntryKind × StackId)} (h : Told db userStack levels) (stackId : StackId) :
    Told db userStack ((.syscall, stackId) :: levels) := by
  rcases levels with _ | ⟨⟨_ | _ | _, other⟩, rest⟩
  · exact h
  · exact h
  · exact trivial
  · exact h

theorem told_of_means {db : Database} {userStack : Option StackId} {level : EntryKind × StackId}
    (h : Means db userStack level) (hkind : level.1 ≠ .syscall)
    (rest : List (EntryKind × StackId)) : Told db userStack (level :: rest) := by
  rcases level with ⟨_ | _ | _, stackId⟩
  · exact h
  · exact absurd rfl hkind
  · exact h

/-! ### One operation -/

theorem map_stackId_closeBack (ts : ℕ) (entries : List StackWrapper) :
    (closeBack ts entries).map StackWrapper.stackId = entries.map StackWrapper.stackId := by
  rcases List.eq_nil_or_concat entries with rfl | ⟨pre, back, rfl⟩
  · rfl
  · simp

/-- A stack that is the last one already leaves the stacks as they are, another one is put
behind them. -/
theorem setEntry_stackIds (ts : ℕ) (stackId : StackId) (isSyscall : Bool)
    (entries : List StackWrapper) :
    (entries.getLast?.map StackWrapper.stackId = some stackId ∧
        (setEntry ts stackId isSyscall entries).map StackWrapper.stackId =
          entries.map StackWrapper.stackId) ∨
      (setEntry ts stackId isSyscall entries).map StackWrapper.stackId =
        entries.map StackWrapper.stackId ++ [stackId] := by
  rcases setEntry_cases ts stackId isSyscall entries with ⟨back, hback, hid, heq⟩ | ⟨-, heq⟩
  · refine .inl ⟨by rw [hback, ← hid]; rfl, ?_⟩
    rw [heq, map_stackId_closeBack]
  · refine .inr ?_
    rw [heq, List.map_append, map_stackId_closeBack]
    rfl

theorem getLast?_setEntry (ts : ℕ) (stackId : StackId) (isSyscall : Bool)
    (entries : List StackWrapper) :
    (setEntry ts stackId isSyscall entries).getLast?.map StackWrapper.stackId = some stackId := by
  rw [← List.getLast?_map]
  rcases setEntry_stackIds ts stackId isSyscall entries with ⟨hlast, heq⟩ | heq
  · rw [heq, List.getLast?_map, hlast]
  · rw [heq, List.getLast?_concat]

section OneThread

variable {db db' : Database} {entries : List StackWrapper} {f : Followed}

theorem Tracks.keeps (h : Tracks db entries f) (hkeeps : Keeps db db') : Tracks db' entries f :=
  ⟨h.levels, h.told.keeps hkeeps⟩

/-- The last entry is the first level. -/
theorem Tracks.head? (h : Tracks db entries f) :
    f.levels.head?.map Prod.snd = entries.getLast?.map StackWrapper.stackId := by
  rw [← List.head?_map, h.levels, List.head?_reverse, List.getLast?_map]

/-- The entry before the last one is the second level. -/
theorem Tracks.tail (h : Tracks db entries f) :
    f.levels.tail.map Prod.snd = (entries.dropLast.map StackWrapper.stackId).reverse := by
  rw [List.map_tail, h.levels, List.tail_reverse, List.map_dropLast]

/-- An operation on a thread that sets a stack. -/
theorem Tracks.set {op : Op} {thread ts : ℕ} {stackId : StackId} {isSyscall : Bool}
    (h : Tracks db entries f) (hthread : op.thread? = some thread)
    (hpushed : Told db' (if op.setsUserStack then some stackId else f.userStack)
      ((op.entryKind f.levels, stackId) :: f.levels))
    (hmerged : f.levels.head?.map Prod.snd = some stackId →
      Told db' (if op.setsUserStack then some stackId else f.userStack)
        (if op.setsUserStack then f.levels.modifyHead fun level => (.user, level.2)
          else f.levels)) :
    Tracks db' (setEntry ts stackId isSyscall entries)
      (f.step op thread entries (setEntry ts stackId isSyscall entries)) := by
  obtain ⟨back, hback, hid⟩ :=
    Option.map_eq_some_iff.mp (getLast?_setEntry ts stackId isSyscall entries)
  rw [Followed.step, hback]
  simp only [hthread, ne_eq, not_true, if_false, hid]
  rcases setEntry_stackIds ts stackId isSyscall entries with ⟨hlast, heq⟩ | heq
  · have hlength := congrArg List.length heq
    rw [List.length_map, List.length_map] at hlength
    rw [if_neg hlength.not_gt]
    refine ⟨?_, hmerged (h.head?.trans hlast)⟩
    rw [heq, ← h.levels]
    split
    · cases f.levels with
      | nil => rfl
      | cons level rest => rfl
    · rfl
  · have hlength := congrArg List.length heq
    rw [List.length_append, List.length_map, List.length_map, List.length_singleton] at hlength
    have hlt : entries.length < (setEntry ts stackId isSyscall entries).length := by omega
    rw [if_pos hlt]
    refine ⟨?_, hpushed⟩
    rw [heq, List.reverse_append, ← h.levels]
    rfl

theorem Tracks.setUserStack {op : Op} {thread ts : ℕ} {stackId : StackId}
    (h : Tracks db entries f) (hthread : op.thread? = some thread)
    (huser : op.setsUserStack = true) :
    Tracks db' (setEntry ts stackId false entries)
      (f.step op thread entries (setEntry ts stackId false entries)) := by
  have hkind : op.entryKind f.levels = .user := by
    cases op <;> first | rfl | cases huser
  refine h.set hthread ?_ fun hhead => ?_
  · rw [if_pos huser, hkind]
    exact told_of_means (show Means db' (some stackId) (.user, stackId) from rfl)
      (fun heq => by cases heq) _
  · obtain ⟨level, hlevel, rfl⟩ := Option.map_eq_some_iff.mp hhead
    rw [if_pos huser, if_pos huser, List.head?_eq_some_iff.mp hlevel |>.choose_spec]
    exact told_of_means (show Means db' (some level.2) (.user, level.2) from rfl)
      (fun heq => by cases heq) _

theorem Tracks.startSystemCall {thread ts : ℕ} {syscall : Bytes} {stackId : StackId}
    (h : Tracks db entries f) (hkeeps : Keeps db db') :
    Tracks db' (setEntry ts stackId true entries)
      (f.step (.startSystemCall thread syscall) thread entries
        (setEntry ts stackId true entries)) :=
  h.set rfl ((h.told.keeps hkeeps).startSyscall stackId) fun _ => h.told.keeps hkeeps

theorem endSytemCall_of_not_inSyscall {b : StacksBuilder} {thread : ℕ}
    (h : ¬ InSyscall (b.stacksOf thread)) : b.endSytemCall thread = pure b := by
  rw [StacksBuilder.endSytemCall]
  cases hback : (b.stacksOf thread).getLast? with
  | none => rfl
  | some back =>
      cases hsyscall : back.isSyscall with
      | false => simp [hsyscall]
      | true => exact absurd (by rw [InSyscall, hback, ← hsyscall]; rfl) h

theorem Followed.levels_of_endsSyscall (h : f.endsSyscall = true) :
    ∃ stackId rest, f.levels = (.syscall, stackId) :: rest ∧
      rest.head?.map Prod.fst ≠ some .syscall := by
  rw [Followed.endsSyscall] at h
  split at h
  · next stackId rest hlevels => exact ⟨stackId, rest, hlevels, of_decide_eq_true h⟩
  · cases h

theorem endSytemCall_returns (b : StacksBuilder) (thread : ℕ) (db : Database) :
    ∃ b' db', (b.endSytemCall thread).runOn db = (.ok b', db') := by
  rw [StacksBuilder.endSytemCall]
  split
  · exact ⟨b, db, rfl⟩
  · split
    · exact ⟨b, db, rfl⟩
    · split
      · obtain ⟨stackId, db', hrun⟩ := getStackIdentifier_returns [str "No Stack"] db
        exact ⟨b.setStack thread stackId true, db', DbM.runOn_map_eq_ok.mpr ⟨stackId, hrun, rfl⟩⟩
      · next previous _ => exact ⟨b.setStack thread previous.stackId false, db, rfl⟩

/-- The end of a system call writes the stack of a level that is not a system call. -/
theorem Tracks.endSytemCall {thread ts : ℕ} {level : EntryKind × StackId} {isSyscall : Bool}
    (h : Tracks db entries f) (hkeeps : Keeps db db')
    (hentry : (Op.endSytemCall thread).entryKind f.levels = level.1)
    (hmeans : Means db' f.userStack level) (hkind : level.1 ≠ .syscall) :
    Tracks db' (setEntry ts level.2 isSyscall entries)
      (f.step (.endSytemCall thread) thread entries (setEntry ts level.2 isSyscall entries)) := by
  refine h.set rfl ?_ fun _ => h.told.keeps hkeeps
  rw [hentry]
  exact told_of_means hmeans hkind _

theorem Means.stackId_eq {level : EntryKind × StackId} {userStack : Option StackId}
    (h : Means db userStack level) (hkind : level.1 ≠ .syscall) :
    level.2 = userStack.getD (noStackId db) := by
  rcases level with ⟨_ | _ | _, stackId⟩
  · rw [show userStack = some stackId from h, Option.getD_some]
  · exact absurd rfl hkind
  · rw [h.1, Option.getD_none, h.2.noStackId_eq]

/-- The end of a system call that finds it in the last entry and something else before it. -/
theorem endSytemCall_restores {b b' : StacksBuilder} {thread : ℕ} {db db' : Database}
    {f : Followed} (h : Tracks db (b.stacksOf thread) f) (hends : f.endsSyscall = true)
    (hin : InSyscall (b.stacksOf thread))
    (hrun : (b.endSytemCall thread).runOn db = (.ok b', db')) :
    Keeps db db' ∧
      Tracks db' (b'.stacksOf thread)
        (f.step (.endSytemCall thread) thread (b.stacksOf thread) (b'.stacksOf thread)) ∧
      (b'.stacksOf thread).getLast?.map StackWrapper.stackId =
        some (f.userStack.getD (noStackId db)) ∧
      ∀ other, other ≠ thread → b'.stacksOf other = b.stacksOf other := by
  obtain ⟨stackId, rest, hlevels, hrest⟩ := f.levels_of_endsSyscall hends
  obtain ⟨back, hback, hsyscall⟩ := Option.map_eq_some_iff.mp hin
  have htail := h.tail
  have htold := h.told
  rw [hlevels] at htail htold
  rw [StacksBuilder.endSytemCall, hback] at hrun
  simp only [hsyscall, Bool.not_true, Bool.false_eq_true, if_false] at hrun
  cases hprevious : (b.stacksOf thread).dropLast.getLast? with
  | none =>
      -- the system call is the only entry
      rw [List.getLast?_eq_none_iff.mp hprevious] at htail
      obtain rfl : rest = [] := List.map_eq_nil_iff.mp htail
      rw [hprevious] at hrun
      obtain ⟨noStack, hnoStack, rfl⟩ := DbM.runOn_map_eq_ok.mp hrun
      obtain ⟨hkeeps, hagain⟩ := getStackIdentifier_interns _ db noStack db' hnoStack
      have hknown : IsNoStack db' noStack := hagain db' (Keeps.refl db')
      have hid : noStackId db = noStack := by rw [noStackId, hnoStack]
      have huser : f.userStack = none := htold
      have hmeans : Means db' f.userStack (.noStack, noStack) := ⟨huser, hknown⟩
      refine ⟨hkeeps, ?_, ?_, fun other hother => b.updateThread_of_ne hother _⟩
      · rw [StacksBuilder.setStack, StacksBuilder.stacksOf_updateThread]
        exact h.endSytemCall hkeeps (by rw [hlevels]; rfl) hmeans (fun heq => by cases heq)
      · rw [StacksBuilder.setStack, StacksBuilder.stacksOf_updateThread, getLast?_setEntry, huser,
          Option.getD_none, hid]
  | some previous =>
      rw [hprevious] at hrun
      cases hrun
      obtain ⟨level, rest, rfl⟩ : ∃ level rest', rest = level :: rest' := by
        cases rest with
        | nil =>
            have hnil := List.map_eq_nil_iff.mp (List.reverse_eq_nil_iff.mp htail.symm)
            rw [hnil] at hprevious
            cases hprevious
        | cons level rest => exact ⟨level, rest, rfl⟩
      have hlevel : level.2 = previous.stackId := by
        have hhead := congrArg List.head? htail
        rw [List.head?_reverse, List.getLast?_map, hprevious] at hhead
        exact Option.some.inj hhead
      have hkind : level.1 ≠ .syscall := fun heq => hrest (congrArg some heq)
      have hmeans : Means db f.userStack level := htold
      refine ⟨Keeps.refl db, ?_, ?_, fun other hother => b.updateThread_of_ne hother _⟩
      · rw [StacksBuilder.setStack, StacksBuilder.stacksOf_updateThread, ← hlevel]
        exact h.endSytemCall (Keeps.refl db) (by rw [hlevels]; rfl) hmeans hkind
      · rw [StacksBuilder.setStack, StacksBuilder.stacksOf_updateThread, getLast?_setEntry,
          ← hlevel, hmeans.stackId_eq hkind]

end OneThread

/-! ### Whole runs -/

theorem Followed.step_of_ne {op : Op} {thread : ℕ} (h : op.thread? ≠ some thread)
    (entries entries' : List StackWrapper) (f : Followed) :
    f.step op thread entries entries' = f := by
  rw [Followed.step]
  cases entries'.getLast? with
  | none => rfl
  | some back => exact if_pos h

/-- An operation that does nothing to a thread. -/
theorem Followed.step_self {op : Op} {thread : ℕ} (h : op.setsUserStack = false)
    (entries : List StackWrapper) (f : Followed) : f.step op thread entries entries = f := by
  rw [Followed.step]
  cases entries.getLast? with
  | none => rfl
  | some back => simp [h]

/-- One operation, on all threads. -/
theorem tracks_step {b b' : StacksBuilder} {db db' : Database} {notes : ℕ → Followed} {op : Op}
    (h : ∀ thread, Tracks db (b.stacksOf thread) (notes thread)) (hop : op.followsThread = true)
    (hends : ∀ thread, op = .endSytemCall thread → InSyscall (b.stacksOf thread) →
      (notes thread).endsSyscall = true)
    (hrun : (op.run b).runOn db = (.ok b', db')) (thread : ℕ) :
    Tracks db' (b'.stacksOf thread)
      ((notes thread).step op thread (b.stacksOf thread) (b'.stacksOf thread)) := by
  -- another thread keeps its entries, and all that changes is the database
  have hother : ∀ target, op.thread? = some target → target ≠ thread → Keeps db db' →
      b'.stacksOf thread = b.stacksOf thread → Tracks db' (b'.stacksOf thread)
        ((notes thread).step op thread (b.stacksOf thread) (b'.stacksOf thread)) := by
    intro target htarget hne hkeeps hsame
    rw [Followed.step_of_ne (by rw [htarget]; exact fun heq => hne (Option.some.inj heq)), hsame]
    exact (h thread).keeps hkeeps
  have hset : ∀ target stackId isSyscall, op.thread? = some target → Keeps db db' →
      b' = b.setStack target stackId isSyscall →
      Tracks db' (setEntry b.ts stackId isSyscall (b.stacksOf target))
        ((notes target).step op target (b.stacksOf target)
          (setEntry b.ts stackId isSyscall (b.stacksOf target))) →
      Tracks db' (b'.stacksOf thread)
        ((notes thread).step op thread (b.stacksOf thread) (b'.stacksOf thread)) := by
    rintro target stackId isSyscall htarget hkeeps rfl htracks
    by_cases hne : target = thread
    · subst hne
      rwa [StacksBuilder.setStack, StacksBuilder.stacksOf_updateThread]
    · exact hother target htarget hne hkeeps (b.updateThread_of_ne (Ne.symm hne) _)
  cases op with
  | setTimestamp ts =>
      cases hrun
      rw [Followed.step_of_ne fun heq => (by cases heq)]
      exact h thread
  | setStack target stackId isSyscall =>
      cases hrun
      obtain rfl : isSyscall = false := by simpa [Op.followsThread] using hop
      exact hset target stackId false rfl (Keeps.refl db) rfl ((h target).setUserStack rfl rfl)
  | setStackNames target stack =>
      obtain ⟨stackId, hstack, rfl⟩ := DbM.runOn_map_eq_ok.mp hrun
      have hkeeps := (getStackIdentifier_interns _ db stackId db' hstack).1
      exact hset target stackId false rfl hkeeps rfl ((h target).setUserStack rfl rfl)
  | startSystemCall target syscall =>
      obtain ⟨stackId, hstack, rfl⟩ := DbM.runOn_map_eq_ok.mp hrun
      have hkeeps := (getStackIdentifier_interns _ db stackId db' hstack).1
      exact hset target stackId true rfl hkeeps rfl ((h target).startSystemCall hkeeps)
  | endSytemCall target =>
      by_cases hin : InSyscall (b.stacksOf target)
      · obtain ⟨hkeeps, htracks, -, hsame⟩ :=
          endSytemCall_restores (h target) (hends target rfl hin) hin hrun
        by_cases hne : target = thread
        · subst hne
          exact htracks
        · exact hother target rfl hne hkeeps (hsame thread (Ne.symm hne))
      · rw [Op.run, endSytemCall_of_not_inSyscall hin] at hrun
        cases hrun
        by_cases hne : target = thread
        · rw [Followed.step_self rfl]
          exact h thread
        · exact hother target rfl hne (Keeps.refl db) rfl
  | setNoStack _ | setLastSystemCallStack _ _ | setLastSystemCallStackNames _ _ | terminate
  | cleanup _ => cases hop

theorem EndsMatched.take {db : Database} {ops : List Op} (h : EndsMatched db ops) (m : ℕ) :
    EndsMatched db (ops.take m) := by
  intro n hn thread hthread
  have hlt : n < m ∧ n < ops.length := by
    rw [List.length_take] at hn
    omega
  rw [List.getElem_take] at hthread
  rw [List.take_take, Nat.min_eq_left hlt.1.le]
  exact h n hlt.2 thread hthread

theorem EndsMatched.last {db : Database} {ops : List Op} {thread : ℕ}
    (h : EndsMatched db (ops ++ [.endSytemCall thread])) :
    MatchedAfter thread (followed db ops) := by
  have hlast := h ops.length (by simp) thread (by rw [List.getElem_concat_length rfl]; rfl)
  rwa [List.take_left] at hlast

theorem followed_tracks {db db' : Database} {ops : List Op} {b : StacksBuilder}
    {notes : ℕ → Followed} (hops : ∀ op ∈ ops, op.followsThread = true)
    (hmatched : EndsMatched db ops) (h : followed db ops = (.ok (b, notes), db')) :
    ∀ thread, Tracks db' (b.stacksOf thread) (notes thread) := by
  induction ops using List.reverseRecOn generalizing b notes db' with
  | nil =>
      cases h
      exact fun thread => ⟨rfl, rfl⟩
  | append_singleton ops op ih =>
      obtain ⟨before, notes', mid, hbefore, hrun, rfl⟩ := (watched_concat_ok _ _).mp h
      have hmatched' := hmatched.take ops.length
      rw [List.take_left] at hmatched'
      have htracks := ih (fun op' hop' => hops op' (List.mem_append_left _ hop')) hmatched' hbefore
      refine tracks_step htracks (hops op (by simp)) ?_ hrun
      rintro thread rfl hin
      have hlast := hmatched.last
      rw [followed, hbefore] at hlast
      exact hlast hin

/-- In a run whose system calls are matched, each end of one restores the user stack. -/
theorem endsRestore_of_endsMatched {db : Database} {ops : List Op}
    (hops : ∀ op ∈ ops, op.followsThread = true) (hmatched : EndsMatched db ops) :
    EndsRestore db ops := by
  intro n hn thread hthread
  have hmatchedAfter := hmatched n hn thread hthread
  generalize hrun : followed db (ops.take n) = result at hmatchedAfter ⊢
  rcases result with ⟨e | ⟨b, notes⟩, mid⟩
  · exact trivial
  · intro hin
    have htracks := followed_tracks (fun op hop => hops op (List.mem_of_mem_take hop))
      (hmatched.take n) hrun thread
    obtain ⟨b', db', hend⟩ := endSytemCall_returns b thread mid
    rw [hend]
    exact (endSytemCall_restores htracks (hmatchedAfter hin) hin hend).2.2.1

/-- Two system calls, the first one of a thread without a stack. -/
def matchedCalls : List Op :=
  [.startSystemCall 1 (str "read"), .setTimestamp 2, .endSytemCall 1, .setTimestamp 3,
    .setStack 1 7 false, .setTimestamp 4, .startSystemCall 1 (str "read"), .setTimestamp 5,
    .endSytemCall 1]

theorem endsRestore_matchedCalls : EndsRestore {} matchedCalls :=
  endsRestore_of_endsMatched (by decide) (by decide +kernel)

/-- The end of the first system call is missing. -/
def nestedCalls : List Op :=
  [.setTimestamp 1, .setStack 1 7 false, .setTimestamp 2, .startSystemCall 1 (str "read"),
    .setTimestamp 3, .startSystemCall 1 (str "write"), .setTimestamp 4, .endSytemCall 1]

/-- The thread is left with the stack of the first system call. -/
theorem not_endsRestore_nestedCalls :
    (∀ op ∈ nestedCalls, op.followsThread = true) ∧ NonDecreasing nestedCalls ∧
      ¬ EndsRestore {} nestedCalls := by
  refine ⟨by decide, by decide, by decide +kernel⟩

end TibeeCompare.Stacks
