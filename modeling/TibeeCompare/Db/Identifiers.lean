import TibeeCompare.Db.Histories

/-!
What callers may rely on: identifiers of names and of stacks for as long as the
database exists, and replies that depend on the operations of their own kind.

Executions are the exception to the second part. Their names and traces are
strings of the table of function names, so that an operation on executions acts
on the names as `AddFunctionName` does.
-/

namespace TibeeCompare.Db

open Interning

/-! ### Identifiers -/

/-- In a history, the replies to `add` number the values, and `get` gives a value
back for its number. -/
structure Numbers {α : Type} (add : α → Op) (get : UInt32 → Op) (value : α → Reply)
    (history : List Op) : Prop where
  identifier : ∀ pre a post, history = pre ++ add a :: post →
    ∃ id, id ≠ 0 ∧ reply pre (add a) = .ok (.id id)
  same_iff : ∀ pre a mid b post i j, history = pre ++ add a :: (mid ++ add b :: post) →
    reply pre (add a) = .ok (.id i) → reply (pre ++ add a :: mid) (add b) = .ok (.id j) →
      (i = j ↔ a = b)
  given_back : ∀ pre a mid id post, history = pre ++ add a :: (mid ++ get id :: post) →
    reply pre (add a) = .ok (.id id) → reply (pre ++ add a :: mid) (get id) = .ok (value a)

/-- A table that grows with the history, is asked by `add` and read by `get`,
numbers its values. -/
theorem numbers_of_table {α : Type} [DecidableEq α] {add : α → Op} {get : UInt32 → Op}
    {value : α → Reply} {history : List Op} (table : List Op → List α)
    (hgrows : ∀ pre rest, table pre <+: table (pre ++ rest))
    (hlast : ∀ pre a, a ∈ table (pre ++ [add a]))
    (hlen : (table history).length < 2 ^ 32 - 1)
    (hadd : ∀ pre a post, history = pre ++ add a :: post →
      reply pre (add a) = .ok (.id (UInt32.ofNat (number (table (pre ++ [add a])) a))))
    (hget : ∀ pre id post, history = pre ++ get id :: post → ∀ a,
      valueAt (table pre) id.toNat = some a → reply pre (get id) = .ok (value a)) :
    Numbers add get value history := by
  have hsmall : ∀ pre a post, history = pre ++ add a :: post →
      0 < number (table (pre ++ [add a])) a ∧ number (table (pre ++ [add a])) a < 2 ^ 32 := by
    intro pre a post h
    have hle := number_le (hlast pre a)
    have hprefix := (hgrows (pre ++ [add a]) post).length_le
    rw [List.append_assoc, List.singleton_append, ← h] at hprefix
    exact ⟨number_pos _ _, by omega⟩
  -- the identifier that a reply gives is the number that the value keeps
  have hnumber : ∀ pre a post id, history = pre ++ add a :: post →
      reply pre (add a) = .ok (.id id) → id.toNat = number (table (pre ++ [add a])) a := by
    intro pre a post id h hreply
    rw [hadd pre a post h] at hreply
    obtain rfl := Reply.id.inj (Except.ok.inj hreply)
    exact UInt32.toNat_ofNat_of_lt' (hsmall pre a post h).2
  have hkept : ∀ pre a rest, number (table (pre ++ add a :: rest)) a =
      number (table (pre ++ [add a])) a := by
    intro pre a rest
    have hprefix := hgrows (pre ++ [add a]) rest
    rw [List.append_assoc, List.singleton_append] at hprefix
    exact number_of_grown hprefix (hlast pre a)
  refine ⟨?_, ?_, ?_⟩
  · intro pre a post h
    refine ⟨_, ?_, hadd pre a post h⟩
    obtain ⟨hpos, hlt⟩ := hsmall pre a post h
    intro hzero
    have := congrArg UInt32.toNat hzero
    rw [UInt32.toNat_ofNat_of_lt' hlt, UInt32.toNat_zero] at this
    omega
  · intro pre a mid b post i j h hi hj
    have h' : history = (pre ++ add a :: mid) ++ add b :: post := by simp [h]
    have hmem : a ∈ table (pre ++ add a :: mid ++ [add b]) := by
      have hprefix := hgrows (pre ++ [add a]) (mid ++ [add b])
      simpa using hprefix.subset (hlast pre a)
    have hi' := hnumber pre a _ i h hi
    rw [← hkept pre a (mid ++ [add b])] at hi'
    rw [← UInt32.toNat_inj, hnumber _ b post j h' hj, hi', ← List.cons_append,
      ← List.append_assoc]
    exact number_inj hmem (hlast _ b)
  · intro pre a mid id post h hreply
    have h' : history = (pre ++ add a :: mid) ++ get id :: post := by simp [h]
    refine hget _ id post h' a ?_
    rw [hnumber pre a _ id h hreply, ← hkept pre a mid]
    refine valueAt_number ?_
    have hprefix := hgrows (pre ++ [add a]) mid
    simpa using hprefix.subset (hlast pre a)

/-- The bound of a history holds where each of its operations comes. -/
theorem UsesFewer.at_op {bound : ℕ} {history pre post : List Op} {op : Op}
    (h : UsesFewer bound history) (hsplit : history = pre ++ op :: post) :
    UsesFewer bound (pre ++ [op]) := by
  subst hsplit
  refine h.mono ?_ ?_
  · intro name hname
    simp only [List.flatMap_append, List.flatMap_cons, List.mem_append] at hname ⊢
    grind
  · intro stack hstack
    simp only [List.filterMap_append, List.mem_append] at hstack ⊢
    grind

theorem reply_at_op {history pre post : List Op} {op : Op}
    (huses : UsesFewer (2 ^ 32 - 1) history) (hsplit : history = pre ++ op :: post) :
    reply pre op = (tables pre).answer op :=
  reply_eq (fits_of_usesFewer (Nat.sub_le _ _) (huses.at_op hsplit))

theorem numbers_names {history : List Op} (huses : UsesFewer (2 ^ 32 - 1) history) :
    Numbers Op.addFunctionName Op.getFunctionName Reply.name history := by
  refine numbers_of_table (fun pre => (tables pre).nameTable) nameTable_grows ?_
    (usesFewer_iff.mp huses).1 ?_ ?_
  · intro pre name
    rw [tables_append]
    exact Tables.mem_addName.mpr (Or.inr rfl)
  · intro pre name post hsplit
    rw [reply_at_op huses hsplit, tables_append]
    rfl
  · intro pre id post hsplit name hname
    have hat : (tables pre).nameAt id = some name := hname
    rw [reply_at_op huses hsplit, Tables.answer, Tables.functionName, hat]
    rfl

theorem numbers_stacks {history : List Op} (huses : UsesFewer (2 ^ 32 - 1) history) :
    Numbers Op.addStack Op.getStack Reply.stack history := by
  refine numbers_of_table (fun pre => (tables pre).stackTable) stackTable_grows ?_
    (usesFewer_iff.mp huses).2 ?_ ?_
  · intro pre stack
    rw [tables_append]
    exact Tables.mem_addStack.mpr (Or.inr rfl)
  · intro pre stack post hsplit
    rw [reply_at_op huses hsplit, tables_append]
    rfl
  · intro pre id post hsplit stack hstack
    have hat : (tables pre).stackAt id = some stack := hstack
    rw [reply_at_op huses hsplit, Tables.answer, Tables.stack, hat]
    rfl

/-! ### Independence -/

inductive Kind
  | name
  | stack
  | execution
deriving DecidableEq

/-- What an operation is about. -/
def Op.kind : Op → Option Kind
  | addFunctionName _ | getFunctionName _ => some .name
  | addStack _ | getStack _ => some .stack
  | addExecution _ | enumerateExecutions _ => some .execution
  | reopen => none

/-- An operation as the data of a kind see it: an operation on executions adds
its strings to the names. -/
def Op.effectOn : Kind → Op → List Op
  | .name, addExecution execution =>
      [addFunctionName execution.name, addFunctionName execution.trace]
  | .name, enumerateExecutions name => [addFunctionName name]
  | kind, op => if op.kind = some kind then [op] else []

/-- Replies depend on the effects on the data of their kind only. -/
def Independent (history : List Op) : Prop :=
  ∀ pre op post kind, history = pre ++ op :: post → op.kind = some kind →
    reply pre op = reply (pre.flatMap (Op.effectOn kind)) op

/-- Replies depend on the operations of their kind only. -/
def Unaffected (history : List Op) : Prop :=
  ∀ pre op post kind, history = pre ++ op :: post → op.kind = some kind →
    reply pre op = reply (pre.filter fun op => op.kind = some kind) op

theorem strings_effectOn (kind : Kind) (op : Op) :
    (op.effectOn kind).flatMap Op.strings ⊆ op.strings := by
  cases kind <;> cases op <;> simp [Op.effectOn, Op.kind, Op.strings]

theorem stacks_effectOn (kind : Kind) (op : Op) :
    (op.effectOn kind).filterMap Op.stack? ⊆ [op].filterMap Op.stack? := by
  cases kind <;> cases op <;> simp [Op.effectOn, Op.kind, Op.stack?, List.filterMap_cons]

theorem UsesFewer.effectOn {bound : ℕ} {pre : List Op} {op : Op} (kind : Kind)
    (h : UsesFewer bound (pre ++ [op])) :
    UsesFewer bound (pre.flatMap (Op.effectOn kind) ++ [op]) := by
  refine h.mono ?_ ?_
  · intro name hname
    rw [List.flatMap_append, List.mem_append, List.flatMap_assoc] at hname
    rw [List.flatMap_append, List.mem_append]
    refine hname.imp_left fun hname => ?_
    obtain ⟨op', hop', hin⟩ := List.mem_flatMap.mp hname
    exact List.mem_flatMap.mpr ⟨op', hop', strings_effectOn kind op' hin⟩
  · intro stack hstack
    rw [List.filterMap_append, List.mem_append, List.filterMap_flatMap] at hstack
    rw [List.filterMap_append, List.mem_append]
    refine hstack.imp_left fun hstack => ?_
    obtain ⟨op', hop', hin⟩ := List.mem_flatMap.mp hstack
    have hin' := stacks_effectOn kind op' hin
    rw [List.mem_filterMap] at hin' ⊢
    obtain ⟨op'', hop'', heq⟩ := hin'
    obtain rfl := List.mem_singleton.mp hop''
    exact ⟨op'', hop', heq⟩

/-- The part of the tables that a reply about a kind is taken from. -/
theorem answer_congr {t t' : Tables} {op : Op} {kind : Kind} (hkind : op.kind = some kind)
    (hnames : kind = .name → t.nameTable = t'.nameTable)
    (hstacks : kind = .stack → t.stackTable = t'.stackTable)
    (hexecutions : kind = .execution → t.executions = t'.executions) :
    t.answer op = t'.answer op := by
  cases op with
  | addFunctionName name =>
      obtain rfl := Option.some.inj hkind
      show Except.ok (Reply.id (UInt32.ofNat (number (intern t.nameTable name) name))) = _
      rw [hnames rfl]
      rfl
  | getFunctionName id =>
      obtain rfl := Option.some.inj hkind
      have hat : t.nameAt id = t'.nameAt id := by rw [Tables.nameAt, hnames rfl, Tables.nameAt]
      rw [Tables.answer, Tables.functionName, hat]
      rfl
  | addStack stack =>
      obtain rfl := Option.some.inj hkind
      show Except.ok (Reply.id (UInt32.ofNat (number (intern t.stackTable stack) stack))) = _
      rw [hstacks rfl]
      rfl
  | getStack id =>
      obtain rfl := Option.some.inj hkind
      have hat : t.stackAt id = t'.stackAt id := by rw [Tables.stackAt, hstacks rfl, Tables.stackAt]
      rw [Tables.answer, Tables.stack, hat]
      rfl
  | addExecution execution => rfl
  | enumerateExecutions name =>
      obtain rfl := Option.some.inj hkind
      have hlist : (t.addName name).enumerate name = (t'.addName name).enumerate name := by
        show (t.executions.filter _).foldr _ _ = (t'.executions.filter _).foldr _ _
        rw [hexecutions rfl]
      rw [Tables.answer, hlist]
      rfl
  | reopen => cases hkind

/-- What is kept of the effects of the operations is what is kept of the operations. -/
theorem filterMap_effectOn {α : Type} {f : Op → Option α} {kind : Kind}
    (h : ∀ op, (op.effectOn kind).filterMap f = (f op).toList) (pre : List Op) :
    (pre.flatMap (Op.effectOn kind)).filterMap f = pre.filterMap f := by
  induction pre with
  | nil => rfl
  | cons op pre ih =>
      rw [List.flatMap_cons, List.filterMap_append, h, ih, List.filterMap_cons]
      cases f op <;> rfl

/-- The effects on a kind build the same part of the tables. -/
theorem tables_effectOn (pre : List Op) (kind : Kind) :
    (kind = .name →
      (tables (pre.flatMap (Op.effectOn kind))).nameTable = (tables pre).nameTable) ∧
    (kind = .stack →
      (tables (pre.flatMap (Op.effectOn kind))).stackTable = (tables pre).stackTable) ∧
    (kind = .execution →
      (tables (pre.flatMap (Op.effectOn kind))).executions = (tables pre).executions) := by
  refine ⟨?_, ?_, ?_⟩
  · rintro rfl
    rw [nameTable_tables, nameTable_tables, List.flatMap_assoc]
    congr 2
    funext op
    cases op <;> rfl
  · rintro rfl
    have hsame : ∀ op : Op, (op.effectOn .stack).filterMap Op.stack? = op.stack?.toList := by
      intro op
      cases op <;> rfl
    rw [stackTable_tables, stackTable_tables, filterMap_effectOn hsame]
  · rintro rfl
    have hsame : ∀ op : Op,
        (op.effectOn .execution).filterMap Op.execution? = op.execution?.toList := by
      intro op
      cases op <;> rfl
    rw [executions_tables, executions_tables, filterMap_effectOn hsame]

theorem independent_of_usesFewer {history : List Op} (huses : UsesFewer (2 ^ 32 - 1) history) :
    Independent history := by
  intro pre op post kind hsplit hkind
  have hop := huses.at_op hsplit
  have heffect := fits_of_usesFewer (Nat.sub_le _ _) (hop.effectOn kind)
  obtain ⟨hnames, hstacks, hexecutions⟩ := tables_effectOn pre kind
  rw [reply_at_op huses hsplit, reply_eq heffect]
  exact answer_congr hkind (fun h => (hnames h).symm) (fun h => (hstacks h).symm)
    fun h => (hexecutions h).symm

/-- Identifiers are kept for good, and apart from the strings of executions the
kinds of data do not affect each other. -/
theorem identifiers_kept (history : List Op) (huses : UsesFewer (2 ^ 32 - 1) history) :
    Numbers Op.addFunctionName Op.getFunctionName Reply.name history ∧
      Numbers Op.addStack Op.getStack Reply.stack history ∧ Independent history :=
  ⟨numbers_names huses, numbers_stacks huses, independent_of_usesFewer huses⟩

/-- An execution `run` of the trace `trace`, and then the name `main`. -/
def executionThenName : List Op :=
  [.addExecution { name := str "run", trace := str "trace", startTs := 1, endTs := 2 },
    .addFunctionName (str "main")]

theorem identifiers_kept_executionThenName :
    UsesFewer (2 ^ 32 - 1) executionThenName ∧
      Numbers Op.addFunctionName Op.getFunctionName Reply.name executionThenName ∧
      Numbers Op.addStack Op.getStack Reply.stack executionThenName ∧
      Independent executionThenName :=
  have huses : UsesFewer (2 ^ 32 - 1) executionThenName := by decide
  ⟨huses, identifiers_kept executionThenName huses⟩

/-- The strings of the execution have the identifiers 1 and 2; without it the
name would have been the first one. -/
theorem not_unaffected_executionThenName :
    UsesFewer (2 ^ 32 - 1) executionThenName ∧ ¬ Unaffected executionThenName := by
  refine ⟨by decide, fun h => ?_⟩
  have hsame := h (executionThenName.take 1) (.addFunctionName (str "main")) [] .name rfl rfl
  have hwith : reply (executionThenName.take 1) (.addFunctionName (str "main")) =
      .ok (.id 3) := by decide
  have hwithout : reply ((executionThenName.take 1).filter fun op => op.kind = some Kind.name)
      (.addFunctionName (str "main")) = .ok (.id 1) := by decide
  rw [hwith, hwithout] at hsame
  exact absurd hsame (by decide)

end TibeeCompare.Db
