import TibeeCompare.Db.StackPushes
import TibeeCompare.Executions.Accounting

/-!
`GetStackIdentifier` and `ConcatenateStacks` on the database of a process.

As long as the identifiers do not run out, a concatenation is one of the tables, and the cache
of concatenations holds nothing else. What a stack spells tells its identifier, so that the
laws of lists are laws of identifiers.
-/

namespace TibeeCompare.Executions

open Db ExtractM Stacks

/-! ### Calls -/

inductive StackCall
  | database (op : Db.Op)
  | getStackIdentifier (names : List Bytes)
  | pushOnStack (bottom : StackId) (function : Bytes)
  | concatenateStacks (bottom top : StackId)
deriving DecidableEq

namespace StackCall

/-- The state after a call. -/
def after (s : Extractor) : StackCall → Extractor
  | database op => ((liftDb op.run).runOn s).2
  | getStackIdentifier names => ((liftDb (StacksBuilder.getStackIdentifier names)).runOn s).2
  | pushOnStack bottom function => ((Executions.pushOnStack bottom function).runOn s).2
  | concatenateStacks bottom top => ((Executions.concatenateStacks bottom top).runOn s).2

/-- The tables after a call. -/
def next (t : Tables) : StackCall → Tables
  | database op => t.apply op
  | getStackIdentifier names => (t.identify names).1
  | pushOnStack bottom function => (Tables.pushName (t, bottom) function).1
  | concatenateStacks bottom top => (t.concatenate bottom top).1

/-- The functions and stacks that a call is given come from the database. -/
def Valid (t : Tables) : StackCall → Prop
  | database (.addStack stack) =>
      (∃ name, t.nameAt stack.function = some name) ∧ Known t.stackAt stack.bottom
  | database _ | getStackIdentifier _ => True
  | pushOnStack bottom _ => Known t.stackAt bottom
  | concatenateStacks bottom top => Known t.stackAt bottom ∧ Known t.stackAt top

end StackCall

/-- Each call is given what comes from the database as it is then. -/
def AllValid : Tables → List StackCall → Prop
  | _, [] => True
  | t, call :: calls => call.Valid t ∧ AllValid (call.next t) calls

/-- The state of a process after some calls. -/
def afterCalls (calls : List StackCall) : Extractor := calls.foldl StackCall.after { db := {} }

def tablesAfter (calls : List StackCall) : Tables := calls.foldl StackCall.next (tables [])

/-! ### The state of a process -/

/-- The tables, and the concatenations of the cache. -/
structure Good (s : Extractor) (t : Tables) : Prop where
  represents : Represents s.db t
  wellFormed : t.WellFormed
  cached : ∀ bottom top full, s.concatenationCache (bottom, top) = some full →
    ∃ functions functions', Spells t.stackAt bottom functions ∧ Spells t.stackAt top functions' ∧
      Spells t.stackAt full (functions' ++ functions)

theorem good_start : Good { db := {} } {} where
  represents := represents_empty
  wellFormed := Tables.wellFormed_empty
  cached _ _ _ h := by cases h

namespace Good

variable {s : Extractor} {t : Tables}

theorem of_db (h : Good s t) {db : Database} {t' : Tables} (hdb : Represents db t')
    (hwf : t'.WellFormed) (hgrows : Grows t t') : Good { s with db } t' where
  represents := hdb
  wellFormed := hwf
  cached := by
    intro bottom top full hcache
    obtain ⟨functions, functions', hbottom, htop, hfull⟩ := h.cached bottom top full hcache
    exact ⟨functions, functions', hgrows.spells hbottom, hgrows.spells htop, hgrows.spells hfull⟩

theorem emptyCache (h : Good s t) : Good { s with concatenationCache := fun _ => none } t where
  represents := h.represents
  wellFormed := h.wellFormed
  cached _ _ _ h := by cases h

theorem addToCache (h : Good s t) {bottom top full : StackId}
    {functions functions' : List FunctionNameId} (hbottom : Spells t.stackAt bottom functions)
    (htop : Spells t.stackAt top functions')
    (hfull : Spells t.stackAt full (functions' ++ functions)) :
    Good { s with
      concatenationCache := Function.update s.concatenationCache (bottom, top) (some full) } t where
  represents := h.represents
  wellFormed := h.wellFormed
  cached := by
    intro bottom' top' full' hcache
    by_cases hkey : (bottom', top') = (bottom, top)
    · cases hkey
      dsimp only at hcache
      rw [Function.update_self] at hcache
      cases hcache
      exact ⟨functions, functions', hbottom, htop, hfull⟩
    · dsimp only at hcache
      rw [Function.update_of_ne hkey] at hcache
      exact h.cached bottom' top' full' hcache

end Good

/-! ### Concatenations -/

theorem runOn_foldlM_liftDb {α : Type} {f : StackId → α → DbM StackId} {l : List α}
    {id id' : StackId} {s : Extractor} {db : Database}
    (h : (l.foldlM f id).runOn s.db = (.ok id', db)) :
    (l.foldlM (fun id a => liftDb (f id a)) id).runOn s = (.ok id', { s with db }) := by
  induction l generalizing id s with
  | nil =>
      cases h
      rfl
  | cons a l ih =>
      rw [List.foldlM_cons] at h ⊢
      obtain ⟨next, db', hstep, hrest⟩ := DbM.runOn_bind_eq_ok.mp h
      rw [runOn_bind_ok (runOn_liftDb hstep)]
      exact ih hrest

theorem runOn_topStackFunctions {t : Tables} {top : StackId} {functions : List FunctionNameId}
    (h : Spells t.stackAt top functions) {rounds : ℕ} (hrounds : functions.length ≤ rounds)
    (above : List FunctionNameId) {s : Extractor} (hs : Represents s.db t) :
    ∃ db, (topStackFunctions rounds top above).runOn s =
        (.ok (functions.reverse ++ above), { s with db }) ∧ Represents db t := by
  induction h generalizing rounds above s with
  | empty =>
      rw [topStackFunctions_empty]
      exact ⟨s.db, rfl, hs⟩
  | @push id stack functions hne hat _ ih =>
      obtain ⟨rounds, rfl⟩ : ∃ n, rounds = n + 1 :=
        Nat.exists_eq_succ_of_ne_zero (Nat.ne_of_gt (Nat.zero_lt_of_lt hrounds))
      have hstack : t.stack id = .ok stack := by
        rw [Tables.stack, hat]
      obtain ⟨db, hget, hdb⟩ := getStack_does t id s.db hs
      rw [hstack] at hget
      rw [topStackFunctions_succ hne, runOn_bind_ok (runOn_liftDb hget), List.reverse_cons,
        List.append_assoc]
      exact ih (Nat.le_of_succ_le_succ hrounds) (stack.function :: above) hdb

theorem runOn_concatenateAnew {t : Tables} {bottom top : StackId} {s : Extractor} (h : Good s t)
    {functions functions' : List FunctionNameId} (hbottom : Spells t.stackAt bottom functions)
    (htop : Spells t.stackAt top functions') (hfits : (t.concatenate bottom top).1.Fits) :
    ∃ s', (concatenateAnew bottom top).runOn s = (.ok (t.concatenate bottom top).2, s') ∧
      Good s' (t.concatenate bottom top).1 := by
  have hlength : functions'.length ≤ 2 ^ 32 :=
    (h.wellFormed.length_le htop).trans top.toNat_lt.le
  have hholds := Tables.holds_concatenate h.wellFormed hbottom htop hfits
  have hgrows := Tables.grows_concatenate t bottom top
  obtain ⟨db, htopRun, hdb⟩ := runOn_topStackFunctions htop hlength [] h.represents
  rw [List.append_nil] at htopRun
  rw [concatenateAnew, runOn_bind_ok htopRun]
  rw [Tables.concatenate_eq_foldl h.wellFormed htop] at hfits hholds hgrows ⊢
  have hdoes : Does (functions'.reverse.foldlM (fun fullStack function =>
      addStack ⟨function, fullStack⟩) bottom) t _ _ :=
    does_foldlM Tables.grows_push push_does hfits
  obtain ⟨db', hfold, hdb'⟩ := hdoes db hdb
  rw [runOn_bind_ok (runOn_foldlM_liftDb hfold)]
  exact ⟨_, rfl, (h.of_db hdb' hholds.wellFormed hgrows).addToCache (hgrows.spells hbottom)
    (hgrows.spells htop) hholds.spells⟩

/-- A concatenation is one of the tables, whether the cache has it or not. -/
theorem runOn_concatenateStacks {t : Tables} {bottom top : StackId} {s : Extractor} (h : Good s t)
    {functions functions' : List FunctionNameId} (hbottom : Spells t.stackAt bottom functions)
    (htop : Spells t.stackAt top functions') (hfits : (t.concatenate bottom top).1.Fits) :
    ∃ s', (concatenateStacks bottom top).runOn s = (.ok (t.concatenate bottom top).2, s') ∧
      Good s' (t.concatenate bottom top).1 := by
  by_cases hempty : top = kEmptyStackId
  · subst hempty
    exact ⟨s, rfl, h⟩
  · cases hcache : s.concatenationCache (bottom, top) with
    | none =>
        rw [concatenateStacks_of_not_cached hempty hcache]
        exact runOn_concatenateAnew h hbottom htop hfits
    | some full =>
        obtain ⟨_, _, hbottom', htop', hfull⟩ := h.cached bottom top full hcache
        rw [hbottom'.unique hbottom, htop'.unique htop] at hfull
        rw [Tables.concatenate_of_spells h.wellFormed hbottom htop hfull]
        exact ⟨s, concatenateStacks_of_cached hempty hcache, h⟩

/-! ### Runs -/

theorem snd_runOn_liftDb {α : Type} (x : DbM α) (s : Extractor) :
    ((liftDb x).runOn s).2 = { s with db := (x.runOn s.db).2 } := by
  rw [liftDb, runOn_get_bind]
  split <;>
    next h =>
      rw [h]
      rfl

theorem Good.liftDb {s : Extractor} {t t' : Tables} (h : Good s t) {α : Type} {x : DbM α}
    {r : Except FatalError α} (hdoes : Does x t r t') (hwf : t'.WellFormed) (hgrows : Grows t t') :
    Good ((Executions.liftDb x).runOn s).2 t' := by
  obtain ⟨db, hrun, hdb⟩ := hdoes s.db h.represents
  rw [snd_runOn_liftDb, hrun]
  exact h.of_db hdb hwf hgrows

namespace StackCall

theorem grows_next (t : Tables) (call : StackCall) : Grows t (call.next t) := by
  cases call with
  | database op => exact grows_apply t op
  | getStackIdentifier names => exact Tables.grows_identify t names
  | pushOnStack bottom function => exact Tables.grows_pushName (t, bottom) function
  | concatenateStacks bottom top => exact Tables.grows_concatenate t bottom top

theorem wellFormed_apply {t : Tables} (h : t.WellFormed) {op : Db.Op}
    (hvalid : (database op).Valid t) : (t.apply op).WellFormed := by
  cases op with
  | addStack stack => exact h.addStack hvalid.1 hvalid.2
  | _ => exact h.of_grows (grows_apply t _) rfl

/-- What one call does. -/
theorem good_after {s : Extractor} {t : Tables} (h : Good s t) {call : StackCall}
    (hvalid : call.Valid t) (hfits : (call.next t).Fits) : Good (call.after s) (call.next t) := by
  have hgrows := call.grows_next t
  cases call with
  | database op => exact h.liftDb (op.run_does hfits) (wellFormed_apply h.wellFormed hvalid) hgrows
  | getStackIdentifier names =>
      exact h.liftDb (getStackIdentifier_does hfits)
        (Tables.holdsNames_identify h.wellFormed hfits).wellFormed hgrows
  | pushOnStack bottom function =>
      obtain ⟨names, hnames⟩ := Tables.exists_decodes h.wellFormed hvalid
      have hholds : Tables.HoldsNames (t, bottom) names := ⟨h.wellFormed, hnames⟩
      exact h.liftDb (pushName_does (t, bottom) function hfits) (hholds.pushName hfits).wellFormed
        hgrows
  | concatenateStacks bottom top =>
      obtain ⟨_, hbottom, -⟩ := h.wellFormed.exists_spells hvalid.1
      obtain ⟨_, htop, -⟩ := h.wellFormed.exists_spells hvalid.2
      obtain ⟨s', hrun, hs'⟩ := runOn_concatenateStacks h hbottom htop hfits
      show Good ((Executions.concatenateStacks bottom top).runOn s).2 _
      rwa [hrun]

end StackCall

theorem grows_foldl_next (calls : List StackCall) (t : Tables) :
    Grows t (calls.foldl StackCall.next t) := by
  induction calls generalizing t with
  | nil => exact Grows.refl t
  | cons call calls ih => exact (call.grows_next t).trans (ih _)

/-- What a run of calls does. -/
theorem good_foldl_after {calls : List StackCall} {s : Extractor} {t : Tables} (h : Good s t)
    (hvalid : AllValid t calls) (hfits : (calls.foldl StackCall.next t).Fits) :
    Good (calls.foldl StackCall.after s) (calls.foldl StackCall.next t) := by
  induction calls generalizing s t with
  | nil => exact h
  | cons call calls ih =>
      have hnext := StackCall.good_after h hvalid.1 ((grows_foldl_next calls _).fits hfits)
      exact ih hnext hvalid.2 hfits

/-- The tables are those of the database, and the cache holds concatenations only. -/
theorem good_afterCalls {calls : List StackCall} (hvalid : AllValid {} calls)
    (hfits : (tablesAfter calls).Fits) : Good (afterCalls calls) (tablesAfter calls) :=
  good_foldl_after good_start hvalid hfits

/-! ### The laws -/

/-- The names of a stack of the database, from its top to its bottom. -/
def Named (db : Database) (id : StackId) (names : List Bytes) : Prop :=
  Decodes (storedStack db) (storedName db) id names

theorem Named.unique {db : Database} {id : StackId} {names names' : List Bytes}
    (h : Named db id names) (h' : Named db id names') : names = names' := by
  obtain ⟨functions, hspells, hnames⟩ := h
  obtain ⟨functions', hspells', hnames'⟩ := h'
  rw [← hspells.unique hspells'] at hnames'
  refine List.right_unique_forall₂' (fun function name name' hname hname' => ?_) hnames hnames'
  exact Option.some.inj (hname.symm.trans hname')

/-- Names get a stack with these names. -/
def Identifies (s : Extractor) (t : Tables) : Prop :=
  ∀ names, (t.identify names).1.Fits → ∃ id db,
    (StacksBuilder.getStackIdentifier names).runOn s.db = (.ok id, db) ∧
      Named db id (if names = [] then [str "empty"] else names)

/-- Two stacks get one with the names of both, which is the same without the cache. -/
def Concatenates (s : Extractor) (t : Tables) : Prop :=
  ∀ bottom top, Known (storedStack s.db) bottom → Known (storedStack s.db) top →
    (t.concatenate bottom top).1.Fits → ∃ names names' full s',
      Named s.db bottom names ∧ Named s.db top names' ∧
      (concatenateStacks bottom top).runOn s = (.ok full, s') ∧
      Named s'.db full (names' ++ names) ∧
      ∃ s'', (concatenateStacks bottom top).runOn { s with concatenationCache := fun _ => none } =
        (.ok full, s'')

def HasIdentity (s : Extractor) : Prop :=
  ∀ id, Known (storedStack s.db) id →
    (∃ s', (concatenateStacks id kEmptyStackId).runOn s = (.ok id, s')) ∧
      ∃ s', (concatenateStacks kEmptyStackId id).runOn s = (.ok id, s')

/-- The two concatenations of three stacks. -/
def concatenateThree (a b c : StackId) : ExtractM (StackId × StackId) := do
  let ab ← concatenateStacks a b
  let left ← concatenateStacks ab c
  let bc ← concatenateStacks b c
  let right ← concatenateStacks a bc
  pure (left, right)

def tablesOfThree (t : Tables) (a b c : StackId) : Tables :=
  let ab := t.concatenate a b
  let left := ab.1.concatenate ab.2 c
  let bc := left.1.concatenate b c
  (bc.1.concatenate a bc.2).1

def Associates (s : Extractor) (t : Tables) : Prop :=
  ∀ a b c, Known (storedStack s.db) a → Known (storedStack s.db) b → Known (storedStack s.db) c →
    (tablesOfThree t a b c).Fits →
      ∃ full s', (concatenateThree a b c).runOn s = (.ok (full, full), s')

section Laws

variable {s : Extractor} {t : Tables}

theorem named_iff {db : Database} (h : Represents db t) {id : StackId} {names : List Bytes} :
    Named db id names ↔ Decodes t.stackAt t.nameAt id names := by
  rw [Named, h.storedStack_eq, h.storedName_eq]

theorem Good.identifies (h : Good s t) : Identifies s t := by
  intro names hfits
  obtain ⟨db, hrun, hdb⟩ := getStackIdentifier_does hfits s.db h.represents
  exact ⟨_, db, hrun, (named_iff hdb).mpr (Tables.holdsNames_identify h.wellFormed hfits).decodes⟩

theorem Good.concatenates (h : Good s t) : Concatenates s t := by
  intro bottom top hbottom htop hfits
  rw [h.represents.storedStack_eq] at hbottom htop
  obtain ⟨names, functions, hbottom, hnames⟩ := Tables.exists_decodes h.wellFormed hbottom
  obtain ⟨names', functions', htop, hnames'⟩ := Tables.exists_decodes h.wellFormed htop
  have hgrows := Tables.grows_concatenate t bottom top
  have hholds := Tables.holds_concatenate h.wellFormed hbottom htop hfits
  obtain ⟨s', hrun, hs'⟩ := runOn_concatenateStacks h hbottom htop hfits
  obtain ⟨s'', hrun', -⟩ := runOn_concatenateStacks h.emptyCache hbottom htop hfits
  refine ⟨names, names', _, s', (named_iff h.represents).mpr ⟨functions, hbottom, hnames⟩,
    (named_iff h.represents).mpr ⟨functions', htop, hnames'⟩, hrun,
    (named_iff hs'.represents).mpr ⟨functions' ++ functions, hholds.spells, ?_⟩, s'', hrun'⟩
  have hnamed := List.rel_append hnames' hnames
  exact hnamed.imp fun _ _ => Tables.nameAt_of_grows hgrows

theorem Good.hasIdentity (h : Good s t) : HasIdentity s := by
  intro id hid
  rw [h.represents.storedStack_eq] at hid
  refine ⟨⟨s, rfl⟩, ?_⟩
  obtain ⟨functions, hspells, -⟩ := h.wellFormed.exists_spells hid
  have hleft := Tables.concatenate_empty_left h.wellFormed hid
  have hfits : (t.concatenate kEmptyStackId id).1.Fits := by
    rw [hleft]
    exact h.represents.fits
  obtain ⟨s', hrun, -⟩ := runOn_concatenateStacks h .empty hspells hfits
  rw [hleft] at hrun
  exact ⟨s', hrun⟩

/-- A concatenation as a step to other tables. -/
theorem Good.concatenate (h : Good s t) {bottom top : StackId}
    {functions functions' : List FunctionNameId} (hbottom : Spells t.stackAt bottom functions)
    (htop : Spells t.stackAt top functions') {r : Tables × StackId}
    (hr : t.concatenate bottom top = r) (hfits : r.1.Fits) :
    Spells r.1.stackAt r.2 (functions' ++ functions) ∧
      ∃ s', (concatenateStacks bottom top).runOn s = (.ok r.2, s') ∧ Good s' r.1 := by
  subst hr
  exact ⟨(Tables.holds_concatenate h.wellFormed hbottom htop hfits).spells,
    runOn_concatenateStacks h hbottom htop hfits⟩

theorem Good.associates (h : Good s t) : Associates s t := by
  intro a b c ha hb hc hfits
  rw [h.represents.storedStack_eq] at ha hb hc
  obtain ⟨fa, ha, -⟩ := h.wellFormed.exists_spells ha
  obtain ⟨fb, hb, -⟩ := h.wellFormed.exists_spells hb
  obtain ⟨fc, hc, -⟩ := h.wellFormed.exists_spells hc
  rw [tablesOfThree] at hfits
  have hgrows₁ := Tables.grows_concatenate t a b
  generalize hab : t.concatenate a b = ab at hfits hgrows₁
  have hgrows₂ := Tables.grows_concatenate ab.1 ab.2 c
  generalize hleft : ab.1.concatenate ab.2 c = left at hfits hgrows₂
  have hgrows₃ := Tables.grows_concatenate left.1 b c
  generalize hbc : left.1.concatenate b c = bc at hfits hgrows₃
  have hgrows₄ := Tables.grows_concatenate bc.1 a bc.2
  generalize hright : bc.1.concatenate a bc.2 = right at hfits hgrows₄
  have hfits₃ := hgrows₄.fits hfits
  have hfits₂ := hgrows₃.fits hfits₃
  have hbefore := hgrows₁.trans hgrows₂
  obtain ⟨hab', s₁, hrun₁, h⟩ := h.concatenate ha hb hab (hgrows₂.fits hfits₂)
  obtain ⟨hleft', s₂, hrun₂, h⟩ := h.concatenate hab' (hgrows₁.spells hc) hleft hfits₂
  obtain ⟨hbc', s₃, hrun₃, h⟩ :=
    h.concatenate (hbefore.spells hb) (hbefore.spells hc) hbc hfits₃
  obtain ⟨hright', s₄, hrun₄, -⟩ :=
    h.concatenate ((hbefore.trans hgrows₃).spells ha) hbc' hright hfits
  have hsame : left.2 = right.2 := by
    rw [List.append_assoc] at hright'
    exact Tables.spells_injective ((hgrows₃.trans hgrows₄).spells hleft') hright'
  refine ⟨left.2, s₄, ?_⟩
  rw [concatenateThree, runOn_bind_ok hrun₁, runOn_bind_ok hrun₂, runOn_bind_ok hrun₃,
    runOn_bind_ok hrun₄, ← hsame]
  rfl

end Laws

/-- The laws of the two functions, in every state that a process reaches. -/
theorem concatenation_laws {calls : List StackCall} (hvalid : AllValid {} calls)
    (hfits : (tablesAfter calls).Fits) :
    Identifies (afterCalls calls) (tablesAfter calls) ∧
      Concatenates (afterCalls calls) (tablesAfter calls) ∧ HasIdentity (afterCalls calls) ∧
      Associates (afterCalls calls) (tablesAfter calls) := by
  have h := good_afterCalls hvalid hfits
  exact ⟨h.identifies, h.concatenates, h.hasIdentity, h.associates⟩

/-- A stack of two functions, and what `main` on top of it gives. -/
def callsOfMain : List StackCall :=
  [.getStackIdentifier [str "read", str "main"], .concatenateStacks 2 1]

theorem concatenation_laws_ofMain :
    Identifies (afterCalls callsOfMain) (tablesAfter callsOfMain) ∧
      Concatenates (afterCalls callsOfMain) (tablesAfter callsOfMain) ∧
      HasIdentity (afterCalls callsOfMain) ∧
      Associates (afterCalls callsOfMain) (tablesAfter callsOfMain) := by
  have hbottom :
      Known (StackCall.next {} (.getStackIdentifier [str "read", str "main"])).stackAt 2 :=
    Tables.known_iff.mpr (by decide +kernel)
  have htop : Known (StackCall.next {} (.getStackIdentifier [str "read", str "main"])).stackAt 1 :=
    Tables.known_iff.mpr (by decide +kernel)
  have hfits : (tablesAfter callsOfMain).Fits := ⟨by decide +kernel, by decide +kernel⟩
  exact concatenation_laws ⟨trivial, ⟨hbottom, htop⟩, trivial⟩ hfits

/-! ### Stacks that are too high -/

/-- A new stack gets the next number, as far as 32 bits hold it. -/
theorem addStack_of_notMem {db : Database} {t : Tables} (h : Represents db t) {stack : Stack}
    (hnew : stack ∉ t.stackTable) :
    ∃ db', (addStack stack).runOn db = (.ok (UInt32.ofNat (t.stackTable.length + 1)), db') := by
  have hstore : db.store.get (.stackReverse stack) = none := by
    rw [h.store, Tables.lookup, Interning.find_of_notMem hnew, Option.map_none]
  have hnext := getIdentifier_eq (h.store .stackCount)
  rw [addStack, DbM.runOn_get_bind, hstore]
  simp only [hnext]
  exact ⟨_, rfl⟩

/-- One function over and over, in tables that have no other name. -/
structure Tower (name : Bytes) (n : ℕ) (r : Tables × StackId) : Prop where
  holds : Tables.HoldsNames r (List.replicate n name)
  names : r.1.nameTable ⊆ [name]
  length : r.1.stackTable.length = n
  top : r.2.toNat = n

theorem Tower.fits_addName {name : Bytes} {n : ℕ} {r : Tables × StackId} (h : Tower name n r)
    (hn : n < 2 ^ 32) : (r.1.addName name).Fits := by
  have hsubset : (r.1.addName name).nameTable ⊆ [name] := by
    intro name' hmem
    rcases Tables.mem_addName.mp hmem with hmem | rfl
    · exact h.names hmem
    · exact List.mem_singleton_self _
  have hlength := (List.subperm_of_subset (r.1.addName name).nameTable_nodup hsubset).length_le
  exact ⟨hlength.trans_lt (Nat.one_lt_two_pow (by decide)), h.length.trans_lt hn⟩

theorem Tower.fits {name : Bytes} {n : ℕ} {r : Tables × StackId} (h : Tower name n r)
    (hn : n < 2 ^ 32) : r.1.Fits := (h.fits_addName hn).of_addName

theorem Tower.notMem {name : Bytes} {n : ℕ} {r : Tables × StackId} (h : Tower name n r)
    (hn : n < 2 ^ 32) (function : FunctionNameId) :
    ⟨function, r.2⟩ ∉ (r.1.addName name).stackTable :=
  (h.holds.wellFormed.addName name).notMem (h.fits_addName hn) (h.length.trans h.top.symm).le

theorem Tower.pushName {name : Bytes} {n : ℕ} {r : Tables × StackId} (h : Tower name n r)
    (hn : n + 1 < 2 ^ 32) : Tower name (n + 1) (Tables.pushName r name) := by
  have hfitsName := h.fits_addName (Nat.lt_of_succ_lt hn)
  have hnew := h.notMem (Nat.lt_of_succ_lt hn) ((r.1.addName name).nameId name)
  have hlength : (Tables.pushName r name).1.stackTable.length = n + 1 := by
    have hintern := congrArg List.length (Interning.intern_of_notMem hnew)
    rw [List.length_append, List.length_singleton] at hintern
    exact hintern.trans (congrArg (· + 1) h.length)
  have hfits : (Tables.pushName r name).1.Fits := ⟨hfitsName.1, hlength.trans_lt hn⟩
  have hid := congrArg UInt32.ofNat (Interning.number_intern_of_notMem hnew)
  refine ⟨h.holds.pushName hfits, ?_, hlength, ?_⟩
  · intro name' hmem
    rcases Tables.mem_addName.mp hmem with hmem | rfl
    · exact h.names hmem
    · exact List.mem_singleton_self _
  · have htop : (Tables.pushName r name).2 = UInt32.ofNat (r.1.stackTable.length + 1) := hid
    rw [htop, h.length, UInt32.toNat_ofNat_of_lt' hn]

theorem tower (name : Bytes) {n : ℕ} (hn : n < 2 ^ 32) :
    Tower name n ((List.replicate n name).foldl Tables.pushName ({}, kEmptyStackId)) := by
  induction n with
  | zero => exact ⟨Tables.holdsNames_empty Tables.wellFormed_empty, List.nil_subset _, rfl, rfl⟩
  | succ n ih =>
      rw [List.replicate_succ', List.foldl_append]
      exact (ih (Nat.lt_of_succ_lt hn)).pushName hn

/-- As many copies of a name as there are identifiers get the empty stack. -/
theorem getStackIdentifier_replicate (name : Bytes) :
    ∃ db, (StacksBuilder.getStackIdentifier (List.replicate (2 ^ 32) name)).runOn {} =
      (.ok kEmptyStackId, db) := by
  obtain ⟨n, hn⟩ : ∃ n, n + 1 = 2 ^ 32 := ⟨2 ^ 32 - 1, rfl⟩
  have hlt : n < 2 ^ 32 := hn ▸ Nat.lt_succ_self n
  have htower := tower name hlt
  have hdoes : Does ((List.replicate n name).foldlM (fun previousStackId function => do
      let function ← addFunctionName function
      addStack ⟨function, previousStackId⟩) kEmptyStackId) {} _ _ :=
    does_foldlM Tables.grows_pushName pushName_does (htower.fits hlt)
  obtain ⟨db, hfold, hdb⟩ := hdoes {} represents_empty
  obtain ⟨db', hname, hdb'⟩ := addFunctionName_does (htower.fits_addName hlt) db hdb
  obtain ⟨db'', hstack⟩ := addStack_of_notMem hdb' (htower.notMem hlt _)
  have hid : UInt32.ofNat (n + 1) = kEmptyStackId := by
    rw [hn]
    rfl
  refine ⟨db'', ?_⟩
  rw [StacksBuilder.getStackIdentifier, if_neg, List.reverse_replicate, ← hn,
    List.replicate_succ', List.foldlM_append, DbM.runOn_bind_ok hfold, List.foldlM_cons,
    DbM.runOn_bind_ok ((DbM.runOn_bind_ok hname).trans hstack), List.foldlM_nil]
  · have hlength : ((Tables.addName _ name).stackTable).length = n := htower.length
    rw [hlength, hid]
    rfl
  · rw [← hn]
    exact List.cons_ne_nil _ _

theorem names_of_empty {db : Database} {names : List Bytes}
    (h : Named db kEmptyStackId names) : names = [] :=
  h.unique ⟨[], .empty, .nil⟩

/-- The names of so high a stack are lost. -/
theorem getStackIdentifier_not_named :
    ∃ db, (StacksBuilder.getStackIdentifier (List.replicate (2 ^ 32) (str "f"))).runOn {} =
        (.ok kEmptyStackId, db) ∧
      ¬ Named db kEmptyStackId (List.replicate (2 ^ 32) (str "f")) := by
  obtain ⟨db, hrun⟩ := getStackIdentifier_replicate (str "f")
  refine ⟨db, hrun, fun hnamed => ?_⟩
  have hlength := congrArg List.length (names_of_empty hnamed)
  rw [List.length_replicate] at hlength
  exact absurd hlength (Nat.two_pow_pos 32).ne'

end TibeeCompare.Executions
