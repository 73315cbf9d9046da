import TibeeCompare.Db.Database
import TibeeCompare.Lib.BinarySearch

/-!
The builder of stacks: for each thread, the stacks that it was seen with and the
times between which it had them.

An entry is open at its end: a new stack of the thread ends the last entry at the
current timestamp and, if it is another stack, starts the next one there. The
identifiers of stacks come from the database.
-/

namespace TibeeCompare.Stacks

open Db BinarySearch

structure StackWrapper where
  stackId : StackId
  startTs : ℕ
  endTs : ℕ
  isSyscall : Bool
  isResolved : Bool
deriving DecidableEq

/-- 100 us. -/
def kMinSyscallDuration : ℕ := 100000

def kMaxRewind : ℕ := 20

structure StacksBuilder where
  ts : ℕ := 0
  stacksOf : ℕ → List StackWrapper := fun _ => []

/-! ### One thread -/

/-- The entries with the end of the last one moved to `ts`. -/
def closeBack (ts : ℕ) (entries : List StackWrapper) : List StackWrapper :=
  match entries.getLast? with
  | none => []
  | some back => entries.dropLast ++ [{ back with endTs := ts }]

/-- `SetStack` on the entries of the thread. -/
def setEntry (ts : ℕ) (stackId : StackId) (isSyscall : Bool) (entries : List StackWrapper) :
    List StackWrapper :=
  let closed := closeBack ts entries
  if (closed.getLast?.map StackWrapper.stackId) = some stackId then closed
  else closed ++ [⟨stackId, ts, ts, isSyscall, false⟩]

/-- A system call that lasts at least `kMinSyscallDuration`. -/
def StackWrapper.isLongSyscall (e : StackWrapper) : Bool :=
  e.isSyscall && decide (kMinSyscallDuration ≤ subU64 e.endTs e.startTs)

/-- The position of the last long system call, among the last `kMaxRewind` entries. -/
def lastLongSyscall (entries : List StackWrapper) : Option ℕ :=
  ((entries.reverse.take kMaxRewind).findIdx? StackWrapper.isLongSyscall).map
    fun i => entries.length - 1 - i

namespace StacksBuilder

def setTimestamp (b : StacksBuilder) (ts : ℕ) : StacksBuilder := { b with ts }

def updateThread (b : StacksBuilder) (thread : ℕ) (entries : List StackWrapper) : StacksBuilder :=
  { b with stacksOf := Function.update b.stacksOf thread entries }

/-- Keeps, for each thread, the entries from the last one that starts before `ts`. -/
def cleanup (b : StacksBuilder) (ts : ℕ) : StacksBuilder :=
  { b with stacksOf := fun thread =>
      let entries := b.stacksOf thread
      entries.drop (partitionPoint (fun e => e.startTs < ts) entries - 1) }

/-- The end of the last stack of each thread is now. -/
def terminate (b : StacksBuilder) : StacksBuilder :=
  { b with stacksOf := fun thread => closeBack b.ts (b.stacksOf thread) }

/-! ### Setting stacks -/

/-- The identifier of a stack, given as its functions from top to bottom. -/
def getStackIdentifier (stack : List Bytes) : DbM StackId :=
  (if stack = [] then [str "empty"] else stack.reverse).foldlM
    (fun previousStackId function => do
      let function ← addFunctionName function
      addStack ⟨function, previousStackId⟩) kEmptyStackId

def setStack (b : StacksBuilder) (thread : ℕ) (stackId : StackId) (isSyscall : Bool) :
    StacksBuilder :=
  b.updateThread thread (setEntry b.ts stackId isSyscall (b.stacksOf thread))

def setStackNames (b : StacksBuilder) (thread : ℕ) (stack : List Bytes) : DbM StacksBuilder := do
  let stackId ← getStackIdentifier stack
  pure (b.setStack thread stackId false)

def setNoStack (b : StacksBuilder) (thread : ℕ) : DbM StacksBuilder := do
  let stackId ← getStackIdentifier [str "No Stack"]
  pure (b.setStack thread stackId true)

def startSystemCall (b : StacksBuilder) (thread : ℕ) (syscall : Bytes) : DbM StacksBuilder := do
  let stackId ← getStackIdentifier [str "sys:" ++ syscall]
  pure (b.setStack thread stackId true)

/-- Back to the stack from before the system call. -/
def endSytemCall (b : StacksBuilder) (thread : ℕ) : DbM StacksBuilder :=
  match (b.stacksOf thread).getLast? with
  | none => pure b
  | some back =>
      -- the thread is in a usermode stack: an error message only
      if !back.isSyscall then pure b
      else
        match (b.stacksOf thread).dropLast.getLast? with
        | none => b.setNoStack thread
        | some previous => pure (b.setStack thread previous.stackId false)

/-- Gives the last long system call of a thread the stack below it. -/
def setLastSystemCallStack (b : StacksBuilder) (thread : ℕ) (stackId : StackId) :
    DbM StacksBuilder :=
  let entries := b.stacksOf thread
  match (lastLongSyscall entries).bind fun i => (entries[i]?).map (i, ·) with
  | none => pure b
  | some (i, entry) =>
      if entry.isResolved then pure b
      else do
        let syscallOnlyStack ← Db.getStack entry.stackId
        let syscallFullStack ← addStack ⟨syscallOnlyStack.function, stackId⟩
        pure (b.updateThread thread
          (entries.set i { entry with stackId := syscallFullStack, isResolved := true }))

def setLastSystemCallStackNames (b : StacksBuilder) (thread : ℕ) (stack : List Bytes) :
    DbM StacksBuilder := do
  let stackId ← getStackIdentifier stack
  b.setLastSystemCallStack thread stackId

/-! ### Reading stacks -/

/-- The stacks of a thread between `start` and `end_`, with the durations that
the callback is given. -/
def enumerateStacks (b : StacksBuilder) (thread start end_ : ℕ) : List (StackId × ℕ) :=
  let entries := b.stacksOf thread
  let first := partitionPoint (fun e => e.startTs < start) entries - 1
  ((entries.drop first).takeWhile fun e => e.startTs ≤ end_).map fun e =>
    (e.stackId, subU64 (min end_ e.endTs) (max start e.startTs))

/-- The stack of a thread at `ts`. -/
def getStack (b : StacksBuilder) (thread ts : ℕ) : StackId :=
  let entries := b.stacksOf thread
  match entries[partitionPoint (fun e => !decide (ts < e.startTs)) entries - 1]? with
  | none => kEmptyStackId
  | some e => if e.startTs ≤ ts ∧ ts < e.endTs then e.stackId else kEmptyStackId

end StacksBuilder

end TibeeCompare.Stacks
