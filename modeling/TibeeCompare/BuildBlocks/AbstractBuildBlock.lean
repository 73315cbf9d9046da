import TibeeCompare.Basic

/-!
`AbstractBuildBlock`: what all blocks read of an event.

What they read from the current state comes with the event.
-/

namespace TibeeCompare.BuildBlocks

structure EventValue where
  /-- The field `cpu_id` of the packet context. -/
  cpuId : ℕ
  /-- The field `vtid` of the event context, if it has it. -/
  vtid : Option ℕ
  /-- `State()->CurrentThreadForCpu(cpuId)`. -/
  currentThread : ℕ
  /-- The unsigned 64-bit fields of the event context. -/
  uLong : String → Option UInt64

def EventValue.threadForEvent (event : EventValue) : ℕ := event.vtid.getD event.currentThread

end TibeeCompare.BuildBlocks
