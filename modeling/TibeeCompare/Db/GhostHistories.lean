import TibeeCompare.Db.StackTables
import TibeeCompare.Lib.Ghosts

/-!
Histories as ghosts of code that uses a database.

Whatever code does to a database, it does with operations one after the other, so that a history
accounts for what it leaves. As long as identifiers do not run out, the tables of the history
tell which stacks are there: the rules below say of which results. A stack that is there is found,
so that an error means that identifiers ran out.
-/

namespace TibeeCompare.Db

open Ghosts

/-- As long as the identifiers last. -/
def WhileFits (p : Tables → Prop) (history : List Op) : Prop :=
  (tables history).Fits → p (tables history)

/-- Nothing but names and stacks was added. -/
def Continues (history history' : List Op) : Prop :=
  ∃ ops, history' = history ++ ops ∧ ∀ op ∈ ops, op.execution? = none

instance : Std.Refl Continues where
  refl history := ⟨[], (List.append_nil history).symm, fun _ hop => (by cases hop)⟩

instance : IsTrans (List Op) Continues where
  trans := by
    rintro history _ _ ⟨ops, rfl, hops⟩ ⟨ops', rfl, hops'⟩
    refine ⟨ops ++ ops', List.append_assoc _ _ _, ?_⟩
    exact List.forall_mem_append.mpr ⟨hops, hops'⟩

section Continues

variable {history history' : List Op}

theorem grows_append (history ops : List Op) : Grows (tables history) (tables (history ++ ops)) :=
  ⟨nameTable_grows history ops, stackTable_grows history ops⟩

theorem Continues.grows (h : Continues history history') :
    Grows (tables history) (tables history') := by
  obtain ⟨ops, rfl, -⟩ := h
  exact grows_append history ops

theorem Continues.filterMap_execution? (h : Continues history history') :
    history'.filterMap Op.execution? = history.filterMap Op.execution? := by
  obtain ⟨ops, rfl, hops⟩ := h
  rw [List.filterMap_append, List.filterMap_eq_nil_iff.mpr hops, List.append_nil]

theorem Continues.single {op : Op} (hop : op.execution? = none) :
    Continues history (history ++ [op]) := by
  refine ⟨[op], rfl, fun other hother => ?_⟩
  rw [List.mem_singleton.mp hother]
  exact hop

theorem WhileFits.of_grows {p : Tables → Prop} (h : WhileFits p history)
    (hgrows : Grows (tables history) (tables history'))
    (hp : ∀ t t', Grows t t' → p t → p t') : WhileFits p history' :=
  fun hfits => hp _ _ hgrows (h (hgrows.fits hfits))

theorem WhileFits.continues {p : Tables → Prop} (h : WhileFits p history)
    (hcontinues : Continues history history')
    (hp : ∀ t t', Grows t t' → p t → p t') : WhileFits p history' :=
  h.of_grows hcontinues.grows hp

end Continues

/-! ### What is there -/

/-- A function of the tables. -/
def NamedIn (function : FunctionNameId) (t : Tables) : Prop :=
  ∃ name, t.nameAt function = some name

/-- The empty stack, or one of the tables. -/
def KnownIn (id : StackId) (t : Tables) : Prop := Known t.stackAt id

/-- A stack of the tables. -/
def StoredIn (id : StackId) (t : Tables) : Prop := ∃ stack, t.stackAt id = some stack

theorem StoredIn.known {id : StackId} {history : List Op} (h : WhileFits (StoredIn id) history) :
    WhileFits (KnownIn id) history := fun hfits => Or.inr (h hfits)

theorem StoredIn.of_known {id : StackId} {history : List Op} (h : WhileFits (KnownIn id) history)
    (hid : id ≠ kEmptyStackId) : WhileFits (StoredIn id) history :=
  fun hfits => (h hfits).resolve_left hid

theorem NamedIn.of_grows {function : FunctionNameId} (t t' : Tables) (h : Grows t t') :
    NamedIn function t → NamedIn function t' := by
  rintro ⟨name, hname⟩
  exact ⟨name, Interning.valueAt_of_grown h.names hname⟩

theorem KnownIn.of_grows {id : StackId} (t t' : Tables) (h : Grows t t') (hid : KnownIn id t) :
    KnownIn id t' :=
  Tables.known_iff.mpr ((Tables.known_iff.mp hid).trans h.stackIds.length_le)

theorem StoredIn.of_grows {id : StackId} (t t' : Tables) (h : Grows t t') :
    StoredIn id t → StoredIn id t' := by
  rintro ⟨stack, hstack⟩
  exact ⟨stack, Interning.valueAt_of_grown h.stackIds hstack⟩

theorem whileFits_empty (history : List Op) : WhileFits (KnownIn kEmptyStackId) history :=
  fun _ => Or.inl rfl

/-! ### Operations -/

/-- The history tells the database, and its tables are well-formed while they fit. -/
structure Replays (history : List Op) (db : Database) : Prop where
  after : db = Db.after history
  wellFormed : WhileFits Tables.WellFormed history

theorem Replays.represents {history : List Op} {db : Database} (h : Replays history db)
    (hfits : (tables history).Fits) : Represents db (tables history) := by
  rw [h.after]
  exact represents_after hfits

theorem DbM.snd_runOn_map {α β : Type} (x : DbM α) (f : α → β) (db : Database) :
    (runOn (x >>= fun a => pure (f a)) db).2 = (runOn x db).2 := by
  cases hx : runOn x db with
  | mk r db' =>
      cases r with
      | ok a => rw [runOn_bind_ok hx, runOn_pure]
      | error e => rw [runOn_bind_error hx]

section Rules

variable {history : List Op} {α : Type} {x : DbM α} {p : α → Tables → Prop}

/-- The identifiers ran out. -/
def RunsOut (_e : FatalError) (history : List Op) : Prop := ¬ (tables history).Fits

/-- A step of the history. As long as the identifiers last, it returns something, with a property
of the tables that follow. -/
theorem gives_op (op : Op) (hop : op.execution? = none)
    (hx : ∀ db, (op.run.runOn db).2 = (x.runOn db).2)
    (hstep : (tables (history ++ [op])).Fits → (tables history).WellFormed →
      (tables (history ++ [op])).WellFormed ∧
        ∃ a, Does x (tables history) (.ok a) (tables (history ++ [op])) ∧
          p a (tables (history ++ [op]))) :
    Gives Replays Continues RunsOut x history fun a => WhileFits (p a) := by
  intro db hdb
  have hwf : (tables (history ++ [op])).Fits → (tables history).WellFormed :=
    fun hfits => hdb.wellFormed ((grows_append history [op]).fits hfits)
  have hruns : (tables (history ++ [op])).Fits →
      ∃ a, (x.run.run db).1 = .ok a ∧ p a (tables (history ++ [op])) := by
    intro hfits
    obtain ⟨-, a, hdoes, hp⟩ := hstep hfits (hwf hfits)
    obtain ⟨db', hrun, -⟩ := hdoes db (hdb.represents ((grows_append history [op]).fits hfits))
    exact ⟨a, congrArg Prod.fst hrun, hp⟩
  refine ⟨history ++ [op], Continues.single hop, ⟨?_, fun hfits => (hstep hfits (hwf hfits)).1⟩,
    fun a ha hfits => ?_, fun e he hfits => ?_⟩
  · rw [after_append, hx, hdb.after]
    rfl
  · obtain ⟨a', ha', hp⟩ := hruns hfits
    rw [ha] at ha'
    cases ha'
    exact hp
  · obtain ⟨a, ha, -⟩ := hruns hfits
    rw [he] at ha
    cases ha

theorem gives_addFunctionName (name : Bytes) :
    Gives Replays Continues RunsOut (addFunctionName name) history
      fun function => WhileFits (NamedIn function) := by
  refine gives_op (.addFunctionName name) rfl (DbM.snd_runOn_map _ _) fun hfits hwf => ?_
  rw [tables_append] at hfits ⊢
  exact ⟨hwf.addName name, _, addFunctionName_does hfits, name,
    Tables.nameAt_nameId hfits (Tables.mem_addName.mpr (Or.inr rfl))⟩

theorem gives_addStack {stack : Stack} (hfunction : WhileFits (NamedIn stack.function) history)
    (hbottom : WhileFits (KnownIn stack.bottom) history) :
    Gives Replays Continues RunsOut (addStack stack) history fun id => WhileFits (StoredIn id) := by
  refine gives_op (.addStack stack) rfl (DbM.snd_runOn_map _ _) fun hfits hwf => ?_
  have hfits' := (grows_append history [.addStack stack]).fits hfits
  rw [tables_append] at hfits ⊢
  exact ⟨hwf.addStack (hfunction hfits') (hbottom hfits'), _, addStack_does hfits, stack,
    Tables.stackAt_stackId hfits (Tables.mem_addStack.mpr (Or.inr rfl))⟩

theorem gives_getStack {id : StackId} (hid : WhileFits (StoredIn id) history) :
    Gives Replays Continues RunsOut (Db.getStack id) history fun stack =>
      WhileFits fun t => NamedIn stack.function t ∧ KnownIn stack.bottom t := by
  refine gives_op (.getStack id) rfl (DbM.snd_runOn_map _ _) fun hfits hwf => ?_
  rw [tables_append] at hfits ⊢
  obtain ⟨stack, hstack⟩ := hid hfits
  have hdoes := getStack_does (tables history) id
  rw [Tables.stack, hstack] at hdoes
  exact ⟨hwf, stack, hdoes, hwf.named id _ hstack, hwf.known_bottom hstack⟩

/-- A function and a stack with it on top. -/
theorem gives_push {bottom : StackId} (hbottom : WhileFits (KnownIn bottom) history)
    (name : Bytes) :
    Gives Replays Continues RunsOut (do
      let function ← addFunctionName name
      addStack ⟨function, bottom⟩) history fun id => WhileFits (StoredIn id) :=
  (gives_addFunctionName name).bind fun _ _ hcontinues hfunction =>
    gives_addStack hfunction (hbottom.continues hcontinues KnownIn.of_grows)

end Rules

end TibeeCompare.Db
