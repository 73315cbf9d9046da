import TibeeCompare.Containers.RedBlackIntervalTree

/-!
`disk::DiskRequests`: when which thread waited for the disk.

The clock of the source's class is left out, since none of its functions reads it.
-/

namespace TibeeCompare.Disk

open Containers

structure DiskRequests where
  intervals : RedBlackIntervalTree ℕ := {}

namespace DiskRequests

/-- Builds a new tree from what lies behind `ts`. -/
def cleanup (requests : DiskRequests) (ts : ℕ) : DiskRequests where
  intervals := RedBlackIntervalTree.insertAll {}
    (requests.intervals.enumerateIntersection ⟨ts, U64 - 1⟩)

def addInterval (requests : DiskRequests) (start end_ tid : ℕ) : DiskRequests where
  intervals := requests.intervals.insert ⟨start, end_⟩ tid

def getIntervals (requests : DiskRequests) (start end_ : ℕ) : List (Interval × ℕ) :=
  requests.intervals.enumerateIntersection ⟨start, end_⟩

end DiskRequests

end TibeeCompare.Disk
