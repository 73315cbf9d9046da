import TibeeCompare.Stacks.StacksBuilder

/-!
The events that build the stacks of threads.

`BuildBlock` moves the clock of the builder to the timestamp of each event before
a handler sees it; every 12 seconds it ends the open stacks and discards what is
old.
-/

namespace TibeeCompare.StacksBlocks

open Db Stacks StacksBuilder

/-- The events of `ProfilerBlock`. For each address of a sampled stack an event
has what `LookupSymbol` finds. -/
inductive ProfilerEvent
  | onCpuSample (symbols : List (Option Bytes))
  | offCpuSample (symbols : List (Option Bytes))
  | syscallEntry (name : Bytes)
  | syscallExit
  | syscallLatency (duration : ℕ)

def kSyscallWithParamsPrefix : Bytes := str "syscall_entry_"

/-- The functions of a sampled stack, without those of the profiler itself. -/
def readStack (symbols : List (Option Bytes)) : List Bytes :=
  (symbols.map fun symbol => symbol.getD (str "Unknown Symbol")).filter fun name =>
    !(str "lttng_profile").isPrefixOf name

def onOnCpuSample (b : StacksBuilder) (tid : ℕ) (symbols : List (Option Bytes)) :
    DbM StacksBuilder :=
  b.setStackNames tid (readStack symbols)

def onOffCpuSample (b : StacksBuilder) (tid : ℕ) (symbols : List (Option Bytes)) :
    DbM StacksBuilder :=
  b.setLastSystemCallStackNames tid (readStack symbols)

def onSyscallEntry (b : StacksBuilder) (tid : ℕ) (name : Bytes) : DbM StacksBuilder :=
  let syscall :=
    if kSyscallWithParamsPrefix.isPrefixOf name then name.drop kSyscallWithParamsPrefix.length
    else name
  b.startSystemCall tid syscall

def onSyscallExit (b : StacksBuilder) (tid : ℕ) : DbM StacksBuilder := b.endSytemCall tid

/-- A system call that is over, as one event: the clock goes back to its start. -/
def onSyscallLatency (b : StacksBuilder) (ts tid duration : ℕ) : DbM StacksBuilder := do
  let b ← (b.setTimestamp (subU64 ts duration)).startSystemCall tid (str "syscall")
  (b.setTimestamp ts).endSytemCall tid

def onEvent (b : StacksBuilder) (ts tid : ℕ) : ProfilerEvent → DbM StacksBuilder
  | .onCpuSample symbols => onOnCpuSample b tid symbols
  | .offCpuSample symbols => onOffCpuSample b tid symbols
  | .syscallEntry name => onSyscallEntry b tid name
  | .syscallExit => onSyscallExit b tid
  | .syscallLatency duration => onSyscallLatency b ts tid duration

/-! ### Runs -/

/-- What happens to the builder: an event of a thread at a timestamp, an event of
another block, or the saving of executions. -/
inductive Step
  | event (ts tid : ℕ) (e : ProfilerEvent)
  | timestamp (ts : ℕ)
  | terminate
  | cleanup (ts : ℕ)

def Step.run (b : StacksBuilder) : Step → DbM StacksBuilder
  | event ts tid e => onEvent (b.setTimestamp ts) ts tid e
  | timestamp ts => pure (b.setTimestamp ts)
  | terminate => pure b.terminate
  | cleanup ts => pure (b.cleanup ts)

/-- Timestamps do not decrease, and a system call does not last longer than the
trace. -/
def Step.InOrder (b : StacksBuilder) : Step → Prop
  | event ts _ (.syscallLatency duration) => b.ts ≤ ts ∧ duration ≤ ts
  | event ts _ _ => b.ts ≤ ts
  | timestamp ts => b.ts ≤ ts
  | terminate => True
  | cleanup _ => True

/-- The builders and databases that a run in order leads to, from any database,
when each of its steps is allowed by `Allowed`. -/
inductive Reachable (Allowed : StacksBuilder → Database → Step → Prop) :
    StacksBuilder → Database → Prop
  | initial (db : Database) : Reachable Allowed {} db
  | step {b b' : StacksBuilder} {db db' : Database} {s : Step} (h : Reachable Allowed b db)
      (horder : s.InOrder b) (hallowed : Allowed b db s)
      (hrun : (s.run b).runOn db = (.ok b', db')) : Reachable Allowed b' db'

end TibeeCompare.StacksBlocks
