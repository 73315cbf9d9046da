import TibeeCompare.Db.StackCounts
import TibeeCompare.Executions.Concatenation
import TibeeCompare.Stacks.Cleanups

/-!
The chains of stacks that a process makes.

A process has a builder of stacks, an extractor and a database. The tables of the database
follow its calls: as long as these are given identifiers that it has seen, and the identifiers
do not run out, each stack has a name on top and a bottom that came before it.
-/

namespace TibeeCompare.Db

theorem Does.bind_error {α β : Type} {x : DbM α} {next : α → DbM β} {t t' : Tables}
    {e : FatalError} (h : Does x t (.error e) t') : Does (x >>= next) t (.error e) t' := by
  intro db hdb
  obtain ⟨db', hrun, hdb'⟩ := h db hdb
  exact ⟨db', DbM.runOn_bind_error hrun, hdb'⟩

end TibeeCompare.Db

namespace TibeeCompare.Executions

open Db ExtractM Stacks

/-! ### A process -/

structure Process where
  builder : StacksBuilder := {}
  extractor : Extractor := { db := {} }
  /-- The identifiers that calls returned. -/
  returned : List StackId := []

inductive ProcessCall
  | getStackIdentifier (names : List Bytes)
  | pushOnStack (bottom : StackId) (function : Bytes)
  | concatenateStacks (bottom top : StackId)
  | builder (op : Stacks.Op)
  /-- The database is closed and opened. -/
  | reopen
  /-- Another process on the same database. -/
  | restart

namespace Process

variable (s : Process)

/-- The empty stack, what calls returned, and the stacks of the threads. -/
def HasSeen (id : StackId) : Prop :=
  id = kEmptyStackId ∨ id ∈ s.returned ∨ ∃ thread, ∃ e ∈ s.builder.stacksOf thread, e.stackId = id

/-- A call that returns an identifier. -/
def call (x : ExtractM StackId) : Process :=
  match x.runOn s.extractor with
  | (.ok id, extractor) => { s with extractor, returned := s.returned ++ [id] }
  | (.error _, extractor) => { s with extractor }

/-- A call that changes the builder. -/
def build (x : DbM StacksBuilder) : Process :=
  match x.runOn s.extractor.db with
  | (.ok builder, db) => { s with builder, extractor := { s.extractor with db } }
  | (.error _, db) => { s with extractor := { s.extractor with db } }

end Process

namespace ProcessCall

def after (s : Process) : ProcessCall → Process
  | getStackIdentifier names => s.call (liftDb (StacksBuilder.getStackIdentifier names))
  | pushOnStack bottom function => s.call (Executions.pushOnStack bottom function)
  | concatenateStacks bottom top => s.call (Executions.concatenateStacks bottom top)
  | builder op => s.build (op.run s.builder)
  | reopen => { s with extractor := { s.extractor with db := Db.reopen s.extractor.db } }
  | restart => { extractor := { db := Db.reopen s.extractor.db }, returned := s.returned }

/-- The identifiers that a call is given. -/
def given : ProcessCall → List StackId
  | pushOnStack bottom _ => [bottom]
  | concatenateStacks bottom top => [bottom, top]
  | builder (.setStack _ id _) | builder (.setLastSystemCallStack _ id) => [id]
  | getStackIdentifier _ | reopen | restart | builder (.setTimestamp _)
  | builder (.setStackNames _ _) | builder (.setNoStack _) | builder (.startSystemCall _ _)
  | builder (.endSytemCall _) | builder (.setLastSystemCallStackNames _ _) | builder .terminate
  | builder (.cleanup _) => []

end ProcessCall

/-- Each call is given identifiers that the process has seen. -/
def GivenSeen : Process → List ProcessCall → Prop
  | _, [] => True
  | s, call :: calls => (∀ id ∈ call.given, s.HasSeen id) ∧ GivenSeen (call.after s) calls

/-- The process after some calls, on a database that is empty at first. -/
def processAfter (calls : List ProcessCall) : Process :=
  calls.foldl (fun s call => call.after s) {}

/-! ### The tables of its database -/

/-- The tables after a system call among some entries got the stack below it. -/
def resolved (t : Tables) (entries : List StackWrapper) (id : StackId) : Tables :=
  (syscallToResolve entries).elim t fun found =>
    (t.stackAt found.2.stackId).elim t fun top => t.addStack ⟨top.function, id⟩

/-- The tables after an operation on a builder. -/
def builtBy (b : StacksBuilder) (t : Tables) : Stacks.Op → Tables
  | .setStackNames _ names => (t.identify names).1
  | .setNoStack _ => (t.identify [str "No Stack"]).1
  | .startSystemCall _ syscall => (t.identify [str "sys:" ++ syscall]).1
  | .endSytemCall thread =>
      match (b.stacksOf thread).getLast? with
      | none => t
      | some back =>
          if !back.isSyscall then t
          else
            match (b.stacksOf thread).dropLast.getLast? with
            | none => (t.identify [str "No Stack"]).1
            | some _ => t
  | .setLastSystemCallStack thread id => resolved t (b.stacksOf thread) id
  | .setLastSystemCallStackNames thread names =>
      resolved (t.identify names).1 (b.stacksOf thread) (t.identify names).2
  | .setTimestamp _ | .setStack _ _ _ | .terminate | .cleanup _ => t

/-- The tables after a call. -/
def ProcessCall.next (s : Process) (t : Tables) : ProcessCall → Tables
  | getStackIdentifier names => (t.identify names).1
  | pushOnStack bottom function => (Tables.pushName (t, bottom) function).1
  | concatenateStacks bottom top => (t.concatenate bottom top).1
  | builder op => builtBy s.builder t op
  | reopen | restart => t

def tablesFrom : Process → Tables → List ProcessCall → Tables
  | _, t, [] => t
  | s, t, call :: calls => tablesFrom (call.after s) (call.next s t) calls

/-- The names and stacks that some calls put into the database. -/
def processTables (calls : List ProcessCall) : Tables := tablesFrom {} (tables []) calls

/-! ### Growth -/

theorem grows_resolved (t : Tables) (entries : List StackWrapper) (id : StackId) :
    Grows t (resolved t entries id) := by
  rw [resolved]
  cases syscallToResolve entries with
  | none => exact Grows.refl t
  | some found =>
      rw [Option.elim_some]
      cases t.stackAt found.2.stackId with
      | none => exact Grows.refl t
      | some top => exact grows_addStack t _

theorem grows_builtBy (b : StacksBuilder) (t : Tables) (op : Stacks.Op) :
    Grows t (builtBy b t op) := by
  cases op with
  | setStackNames thread names => exact Tables.grows_identify t names
  | setNoStack thread => exact Tables.grows_identify t _
  | startSystemCall thread syscall => exact Tables.grows_identify t _
  | endSytemCall thread =>
      rw [builtBy]
      split
      · exact Grows.refl t
      · split
        · exact Grows.refl t
        · split
          · exact Tables.grows_identify t _
          · exact Grows.refl t
  | setLastSystemCallStack thread id => exact grows_resolved t _ id
  | setLastSystemCallStackNames thread names =>
      exact (Tables.grows_identify t names).trans (grows_resolved _ _ _)
  | setTimestamp _ | setStack _ _ _ | terminate | cleanup _ => exact Grows.refl t

theorem ProcessCall.grows_next (s : Process) (t : Tables) (call : ProcessCall) :
    Grows t (call.next s t) := by
  cases call with
  | getStackIdentifier names => exact Tables.grows_identify t names
  | pushOnStack bottom function => exact Tables.grows_pushName (t, bottom) function
  | concatenateStacks bottom top => exact Tables.grows_concatenate t bottom top
  | builder op => exact grows_builtBy s.builder t op
  | reopen | restart => exact Grows.refl t

theorem grows_tablesFrom (calls : List ProcessCall) (s : Process) (t : Tables) :
    Grows t (tablesFrom s t calls) := by
  induction calls generalizing s t with
  | nil => exact Grows.refl t
  | cons call calls ih => exact (call.grows_next s t).trans (ih _ _)

theorem known_of_grows {t t' : Tables} (h : Grows t t') {id : StackId}
    (hid : Known t.stackAt id) : Known t'.stackAt id :=
  Tables.known_iff.mpr ((Tables.known_iff.mp hid).trans h.stackIds.length_le)

/-! ### The entries of a builder -/

/-- The stacks of the threads are empty or in the tables. -/
def EntriesKnown (t : Tables) (b : StacksBuilder) : Prop :=
  ∀ thread, ∀ e ∈ b.stacksOf thread, Known t.stackAt e.stackId

namespace EntriesKnown

variable {b : StacksBuilder} {t t' : Tables}

theorem of_grows (h : EntriesKnown t b) (hgrows : Grows t t') : EntriesKnown t' b :=
  fun thread e he => known_of_grows hgrows (h thread e he)

theorem updateThread (h : EntriesKnown t b) (thread : ℕ) {entries : List StackWrapper}
    (hentries : ∀ e ∈ entries, Known t.stackAt e.stackId) :
    EntriesKnown t (b.updateThread thread entries) := by
  intro other
  by_cases hother : other = thread
  · subst hother
    rwa [StacksBuilder.stacksOf_updateThread]
  · rw [b.updateThread_of_ne hother]
    exact h other

theorem closeBack {entries : List StackWrapper}
    (h : ∀ e ∈ entries, Known t.stackAt e.stackId) (ts : ℕ) :
    ∀ e ∈ closeBack ts entries, Known t.stackAt e.stackId := by
  rcases List.eq_nil_or_concat entries with rfl | ⟨pre, last, rfl⟩
  · exact h
  · rw [List.concat_eq_append] at h ⊢
    rw [closeBack_concat]
    obtain ⟨hpre, hlast⟩ := List.forall_mem_append.mp h
    exact List.forall_mem_append.mpr ⟨hpre, List.forall_mem_singleton.mpr
      (List.forall_mem_singleton.mp hlast :)⟩

theorem setStack (h : EntriesKnown t b) (thread : ℕ) {id : StackId} (hid : Known t.stackAt id)
    (isSyscall : Bool) : EntriesKnown t (b.setStack thread id isSyscall) := by
  have hclosed := closeBack (h thread) b.ts
  refine h.updateThread thread ?_
  rcases setEntry_cases b.ts id isSyscall (b.stacksOf thread) with ⟨-, -, -, heq⟩ | ⟨-, heq⟩
  · rwa [heq]
  · rw [heq]
    exact List.forall_mem_append.mpr ⟨hclosed, List.forall_mem_singleton.mpr hid⟩

theorem terminate (h : EntriesKnown t b) : EntriesKnown t b.terminate :=
  fun thread => closeBack (h thread) b.ts

theorem cleanup (h : EntriesKnown t b) (ts : ℕ) : EntriesKnown t (b.cleanup ts) :=
  fun thread e he => h thread e (List.mem_of_mem_drop he)

end EntriesKnown

/-- In a database with tables `t`, an operation on a builder leaves the tables `t'` and known
stacks on the threads, unless it throws. -/
def Builds (x : DbM StacksBuilder) (t t' : Tables) : Prop :=
  t'.Stacked ∧ ∃ r, Does x t r t' ∧ ∀ b, r = .ok b → EntriesKnown t' b

section Builds

variable {b : StacksBuilder} {t : Tables}

theorem builds_pure (ht : t.Stacked) (h : EntriesKnown t b) : Builds (pure b) t t := by
  refine ⟨ht, _, Does.pure t b, ?_⟩
  rintro _ ⟨⟩
  exact h

theorem identify_known (ht : t.Stacked) {names : List Bytes}
    (hfew : (t.identify names).1.FewStacks) :
    (t.identify names).1.Stacked ∧
      Does (StacksBuilder.getStackIdentifier names) t (.ok (t.identify names).2)
        (t.identify names).1 ∧
      Known (t.identify names).1.stackAt (t.identify names).2 := by
  have hnext := ht.identify hfew
  have hfits := hnext.fits hfew
  obtain ⟨functions, hspells, -⟩ := (Tables.holdsNames_identify ht.wellFormed hfits).decodes
  exact ⟨hnext, getStackIdentifier_does hfits, hspells.known⟩

/-- Names are given an identifier, which a thread gets. -/
theorem builds_identify (ht : t.Stacked) (h : EntriesKnown t b) (thread : ℕ) {names : List Bytes}
    (isSyscall : Bool) (hfew : (t.identify names).1.FewStacks) :
    Builds (do
      let stackId ← StacksBuilder.getStackIdentifier names
      pure (b.setStack thread stackId isSyscall)) t (t.identify names).1 := by
  obtain ⟨hnext, hdoes, hid⟩ := identify_known ht hfew
  refine ⟨hnext, _, hdoes.map fun stackId => b.setStack thread stackId isSyscall, ?_⟩
  rintro _ ⟨⟩
  exact (h.of_grows (Tables.grows_identify t names)).setStack thread hid isSyscall

theorem Tables.addStack_known {t : Tables} (ht : t.Stacked) {id bottom : StackId} {top : Stack}
    (htop : t.stackAt id = some top) (hbottom : Known t.stackAt bottom)
    (hfew : (t.addStack ⟨top.function, bottom⟩).FewStacks) :
    (t.addStack ⟨top.function, bottom⟩).Stacked ∧
      Known (t.addStack ⟨top.function, bottom⟩).stackAt
        ((t.addStack ⟨top.function, bottom⟩).stackId ⟨top.function, bottom⟩) := by
  have hwf : (t.addStack ⟨top.function, bottom⟩).WellFormed :=
    ht.wellFormed.addStack (ht.wellFormed.named id top htop) hbottom
  have hnext := ht.of_grows (grows_addStack t _) rfl hwf
  exact ⟨hnext, Or.inr ⟨_, Tables.stackAt_stackId (hnext.fits hfew) (by simp)⟩⟩

/-- A system call gets the stack below it. -/
theorem builds_resolved (ht : t.Stacked) (h : EntriesKnown t b) (thread : ℕ) {id : StackId}
    (hid : Known t.stackAt id) (hfew : (resolved t (b.stacksOf thread) id).FewStacks) :
    Builds (b.setLastSystemCallStack thread id) t (resolved t (b.stacksOf thread) id) := by
  rw [setLastSystemCallStack_eq]
  rw [resolved] at hfew ⊢
  cases hfound : syscallToResolve (b.stacksOf thread) with
  | none => exact builds_pure ht h
  | some found =>
      have hget := getStack_does t found.2.stackId
      rw [hfound] at hfew
      rw [Option.elim_some] at hfew
      rw [Option.elim_some, Option.elim_some]
      rw [Tables.stack] at hget
      cases htop : t.stackAt found.2.stackId with
      | none =>
          rw [htop] at hget
          refine ⟨ht, _, Does.bind_error hget, ?_⟩
          rintro _ ⟨⟩
      | some top =>
          rw [htop] at hget hfew
          obtain ⟨hnext, hfull⟩ := Tables.addStack_known ht htop hid hfew
          refine ⟨hnext, _, hget.bind ((addStack_does (hnext.fits hfew)).map _), ?_⟩
          rintro _ ⟨⟩
          have hentries := h.of_grows (grows_addStack t ⟨top.function, id⟩)
          refine hentries.updateThread thread fun e he => ?_
          rcases List.mem_or_eq_of_mem_set he with he | rfl
          · exact hentries thread e he
          · exact hfull

/-- What an operation on a builder does. -/
theorem builds_builtBy (ht : t.Stacked) (h : EntriesKnown t b) {op : Stacks.Op}
    (hgiven : ∀ id ∈ (ProcessCall.builder op).given, Known t.stackAt id)
    (hfew : (builtBy b t op).FewStacks) : Builds (op.run b) t (builtBy b t op) := by
  cases op with
  | setTimestamp ts => exact builds_pure ht h
  | setStack thread id isSyscall =>
      exact builds_pure ht (h.setStack thread (hgiven id List.mem_cons_self) isSyscall)
  | setStackNames thread names => exact builds_identify ht h thread false hfew
  | setNoStack thread => exact builds_identify ht h thread true hfew
  | startSystemCall thread syscall => exact builds_identify ht h thread true hfew
  | endSytemCall thread =>
      rw [Stacks.Op.run, StacksBuilder.endSytemCall]
      rw [builtBy] at hfew ⊢
      cases hback : (b.stacksOf thread).getLast? with
      | none => exact builds_pure ht h
      | some back =>
          rw [hback] at hfew
          dsimp only at hfew ⊢
          by_cases hsyscall : (!back.isSyscall) = true
          · rw [if_pos hsyscall, if_pos hsyscall]
            exact builds_pure ht h
          rw [if_neg hsyscall] at hfew ⊢
          rw [if_neg hsyscall]
          -- without an entry before the system call, the thread gets the stack `No Stack`
          cases hprevious : (b.stacksOf thread).dropLast.getLast? with
          | none =>
              rw [hprevious] at hfew
              exact builds_identify ht h thread true hfew
          | some previous =>
              have hmem := List.dropLast_subset _ (List.mem_of_getLast? hprevious)
              exact builds_pure ht (h.setStack thread (h thread previous hmem) false)
  | setLastSystemCallStack thread id =>
      exact builds_resolved ht h thread (hgiven id List.mem_cons_self) hfew
  | setLastSystemCallStackNames thread names =>
      obtain ⟨hnext, hdoes, hid⟩ := identify_known ht (hfew.of_grows (grows_resolved _ _ _))
      obtain ⟨hlast, r, hdoes', hknown⟩ := builds_resolved hnext
        (h.of_grows (Tables.grows_identify t names)) thread hid hfew
      exact ⟨hlast, r, hdoes.bind hdoes', hknown⟩
  | terminate => exact builds_pure ht h.terminate
  | cleanup ts => exact builds_pure ht (h.cleanup ts)

end Builds

/-! ### Calls -/

/-- The tables are those of the database, and have all stacks that the process has seen. -/
structure Sound (s : Process) (t : Tables) : Prop where
  good : Good s.extractor t
  stacked : t.Stacked
  returned : ∀ id ∈ s.returned, Known t.stackAt id
  entries : EntriesKnown t s.builder

theorem sound_start : Sound {} {} where
  good := good_start
  stacked := Tables.stacked_empty
  returned _ h := by cases h
  entries _ _ h := by cases h

namespace Sound

variable {s : Process} {t t' : Tables}

theorem known (h : Sound s t) {id : StackId} (hid : s.HasSeen id) : Known t.stackAt id := by
  rcases hid with rfl | hreturned | ⟨thread, e, he, rfl⟩
  · exact Or.inl rfl
  · exact h.returned id hreturned
  · exact h.entries thread e he

/-- A call that returns a known stack. -/
theorem call (h : Sound s t) {x : ExtractM StackId} {id : StackId} {extractor : Extractor}
    (hrun : x.runOn s.extractor = (.ok id, extractor)) (hgood : Good extractor t')
    (ht : t'.Stacked) (hgrows : Grows t t') (hid : Known t'.stackAt id) :
    Sound (s.call x) t' := by
  rw [Process.call, hrun]
  refine ⟨hgood, ht, ?_, h.entries.of_grows hgrows⟩
  exact List.forall_mem_append.mpr ⟨fun id hmem => known_of_grows hgrows (h.returned id hmem),
    List.forall_mem_singleton.mpr hid⟩

theorem call_liftDb (h : Sound s t) {x : DbM StackId} {id : StackId} (hdoes : Does x t (.ok id) t')
    (ht : t'.Stacked) (hgrows : Grows t t') (hid : Known t'.stackAt id) :
    Sound (s.call (liftDb x)) t' := by
  obtain ⟨db, hrun, hdb⟩ := hdoes s.extractor.db h.good.represents
  exact h.call (runOn_liftDb hrun) (h.good.of_db hdb ht.wellFormed hgrows) ht hgrows hid

theorem build (h : Sound s t) {x : DbM StacksBuilder} (hbuilds : Builds x t t')
    (hgrows : Grows t t') : Sound (s.build x) t' := by
  obtain ⟨ht, r, hdoes, hknown⟩ := hbuilds
  obtain ⟨db, hrun, hdb⟩ := hdoes s.extractor.db h.good.represents
  have hgood := h.good.of_db hdb ht.wellFormed hgrows
  have hreturned : ∀ id ∈ s.returned, Known t'.stackAt id :=
    fun id hmem => known_of_grows hgrows (h.returned id hmem)
  rw [Process.build, hrun]
  cases r with
  | ok b => exact ⟨hgood, ht, hreturned, hknown b rfl⟩
  | error e => exact ⟨hgood, ht, hreturned, h.entries.of_grows hgrows⟩

theorem pushOnStack (h : Sound s t) {bottom : StackId} (hbottom : Known t.stackAt bottom)
    {function : Bytes} (hfew : (Tables.pushName (t, bottom) function).1.FewStacks) :
    Sound (s.call (Executions.pushOnStack bottom function))
      (Tables.pushName (t, bottom) function).1 := by
  obtain ⟨names, hnames⟩ := Tables.exists_decodes h.stacked.wellFormed hbottom
  have hholds : Tables.HoldsNames (t, bottom) names := ⟨h.stacked.wellFormed, hnames⟩
  obtain ⟨hnext, ht⟩ := Tables.stacked_pushName hholds h.stacked.names_le hfew
  obtain ⟨functions, hspells, -⟩ := hnext.decodes
  exact h.call_liftDb (pushName_does (t, bottom) function (ht.fits hfew)) ht
    (Tables.grows_pushName (t, bottom) function) hspells.known

theorem concatenateStacks (h : Sound s t) {bottom top : StackId}
    (hbottom : Known t.stackAt bottom) (htop : Known t.stackAt top)
    (hfew : (t.concatenate bottom top).1.FewStacks) :
    Sound (s.call (Executions.concatenateStacks bottom top)) (t.concatenate bottom top).1 := by
  have hwf := h.stacked.wellFormed
  obtain ⟨functions, hbottom, -⟩ := hwf.exists_spells hbottom
  obtain ⟨functions', htop, -⟩ := hwf.exists_spells htop
  have hgrows := Tables.grows_concatenate t bottom top
  have hle : (t.concatenate bottom top).1.nameTable.length ≤
      (t.concatenate bottom top).1.stackTable.length := by
    rw [Tables.nameTable_concatenate]
    exact h.stacked.names_le.trans hgrows.stackIds.length_le
  have hfits : (t.concatenate bottom top).1.Fits := by
    rw [Tables.FewStacks] at hfew
    exact ⟨by omega, by omega⟩
  have hholds := Tables.holds_concatenate hwf hbottom htop hfits
  obtain ⟨extractor, hrun, hgood⟩ := runOn_concatenateStacks h.good hbottom htop hfits
  exact h.call hrun hgood ⟨hholds.wellFormed, hle⟩ hgrows hholds.spells.known

/-- What one call does. -/
theorem after (h : Sound s t) {call : ProcessCall} (hgiven : ∀ id ∈ call.given, s.HasSeen id)
    (hfew : (call.next s t).FewStacks) : Sound (call.after s) (call.next s t) := by
  have hknown : ∀ id ∈ call.given, Known t.stackAt id := fun id hid => h.known (hgiven id hid)
  cases call with
  | getStackIdentifier names =>
      obtain ⟨ht, hdoes, hid⟩ := identify_known h.stacked hfew
      exact h.call_liftDb hdoes ht (Tables.grows_identify t names) hid
  | pushOnStack bottom function =>
      exact h.pushOnStack (hknown bottom List.mem_cons_self) hfew
  | concatenateStacks bottom top =>
      exact h.concatenateStacks (hknown bottom List.mem_cons_self)
        (hknown top (List.mem_cons_of_mem _ List.mem_cons_self)) hfew
  | builder op =>
      exact h.build (builds_builtBy h.stacked h.entries hknown hfew) (grows_builtBy _ t op)
  | reopen =>
      exact ⟨h.good.of_db h.good.represents.reopen h.stacked.wellFormed (Grows.refl t), h.stacked,
        h.returned, h.entries⟩
  | restart =>
      refine ⟨⟨h.good.represents.reopen, h.stacked.wellFormed, ?_⟩, h.stacked, h.returned, ?_⟩
      · rintro _ _ _ ⟨⟩
      · rintro _ _ ⟨⟩

end Sound

/-- What a run of calls does. -/
theorem sound_foldl {calls : List ProcessCall} {s : Process} {t : Tables} (h : Sound s t)
    (hseen : GivenSeen s calls) (hfew : (tablesFrom s t calls).FewStacks) :
    Sound (calls.foldl (fun s call => call.after s) s) (tablesFrom s t calls) := by
  induction calls generalizing s t with
  | nil => exact h
  | cons call calls ih =>
      have hnext := h.after hseen.1 (hfew.of_grows (grows_tablesFrom calls _ _))
      exact ih hnext hseen.2 hfew

theorem sound_processAfter {calls : List ProcessCall} (hseen : GivenSeen {} calls)
    (hfew : (processTables calls).FewStacks) : Sound (processAfter calls) (processTables calls) :=
  sound_foldl sound_start hseen hfew

end TibeeCompare.Executions
