import TibeeCompare.Critical.ComputeCriticalPath
import TibeeCompare.Critical.CallScript
import TibeeCompare.Critical.Calls
import TibeeCompare.Critical.CallSteps
import TibeeCompare.Critical.GraphInvariants
import TibeeCompare.Critical.Cleanup
import TibeeCompare.Critical.Built
import TibeeCompare.Critical.Threads
import TibeeCompare.Critical.Tiling
import TibeeCompare.CriticalBlocks.CriticalBlock
import TibeeCompare.CriticalBlocks.Growth
import TibeeCompare.CriticalBlocks.BlockRuns
import TibeeCompare.Lib.Nesting
import TibeeCompare.CriticalBlocks.Interrupts
import TibeeCompare.CriticalBlocks.Traces
import TibeeCompare.CriticalBlocks.NodeReferences
import TibeeCompare.CriticalBlocks.Consistency
import TibeeCompare.CriticalBlocks.Window
import TibeeCompare.Critical.Recursion
import TibeeCompare.CriticalBlocks.Termination
import TibeeCompare.Critical.Spares
import TibeeCompare.Critical.Cutoff
import TibeeCompare.Lib.Codecs
import TibeeCompare.Lib.TracedReaders
import TibeeCompare.Db.Records
import TibeeCompare.Db.RecordReads
import TibeeCompare.Db.Keys
import TibeeCompare.Db.KeyOrder
import TibeeCompare.Db.Database
import TibeeCompare.Db.Tables
import TibeeCompare.Db.Interned
import TibeeCompare.Db.Enumeration
import TibeeCompare.Db.Sampling
import TibeeCompare.Db.SizeEstimates
import TibeeCompare.Db.Histories
import TibeeCompare.Db.StoredKeys
import TibeeCompare.Db.StoredStacks
import TibeeCompare.Db.StackTables
import TibeeCompare.Db.Identifiers
import TibeeCompare.Db.Executions
import TibeeCompare.Lib.BinarySearch
import TibeeCompare.Stacks.StacksBuilder
import TibeeCompare.Db.StackPushes
import TibeeCompare.StacksBlocks.ProfilerBlock
import TibeeCompare.Stacks.EntryOrder
import TibeeCompare.StacksBlocks.StackOrder
import TibeeCompare.Containers.RedBlackIntervalTree
import TibeeCompare.Lib.Timelines
import TibeeCompare.Lib.Instants
import TibeeCompare.Lib.Strides
import TibeeCompare.Lib.Shares
import TibeeCompare.Lib.Forests
import TibeeCompare.Lib.JsonTokens
import TibeeCompare.Lib.JsonTexts
import TibeeCompare.Lib.JsonStrings
import TibeeCompare.Containers.TreeGroups
import TibeeCompare.Containers.TreeInvariants
import TibeeCompare.Containers.Intersection
import TibeeCompare.Disk.DiskRequests
import TibeeCompare.Disk.Cleanups
import TibeeCompare.State.StateHistory
import TibeeCompare.State.Entries
import TibeeCompare.State.Histories
import TibeeCompare.State.Cleanups
import TibeeCompare.State.Counters
import TibeeCompare.State.CounterGrowth
import TibeeCompare.State.CounterOrder
import TibeeCompare.Stacks.Cleanups
import TibeeCompare.Stacks.Windows
import TibeeCompare.Stacks.Runs
import TibeeCompare.Stacks.Instants
import TibeeCompare.Stacks.SystemCalls
import TibeeCompare.Stacks.Rewriting
import TibeeCompare.Executions.ExecutionsBuilder
import TibeeCompare.Executions.Completions
import TibeeCompare.Executions.ExtractMetrics
import TibeeCompare.Executions.ExtractStacks
import TibeeCompare.Executions.DiskSplit
import TibeeCompare.Executions.Ledger
import TibeeCompare.Executions.Accounting
import TibeeCompare.Executions.Concatenation
import TibeeCompare.BuildBlocks.BuildBlock
import TibeeCompare.BuildBlocks.Saving
import TibeeCompare.Symbols.SymbolLookup
import TibeeCompare.Symbols.Offsets
import TibeeCompare.Base.EscapeString
import TibeeCompare.Base.QuotedStrings
import TibeeCompare.Base.JsonWriter
import TibeeCompare.Base.JsonStructure
import TibeeCompare.Report.WriteExecutions
import TibeeCompare.Report.SampleTrees
import TibeeCompare.Db.StackCounts
import TibeeCompare.Executions.StackChains
import TibeeCompare.Report.ChainWalks
import TibeeCompare.Critical.Survivors
import TibeeCompare.CriticalBlocks.Links
import TibeeCompare.CriticalBlocks.Chains
import TibeeCompare.Critical.PathBounds
import TibeeCompare.Executions.Preemptions
import TibeeCompare.Executions.EndlessExtractions
import TibeeCompare.Lib.Meters
import TibeeCompare.BuildBlocks.AbstractBuildBlock
import TibeeCompare.StateBlocks.PerfCountersBlock
import TibeeCompare.StateBlocks.CpuCounters
import TibeeCompare.Lib.JsonTrees
import TibeeCompare.Base.UnescapeString
import TibeeCompare.Base.JsonDocuments
import TibeeCompare.Report.TibeeReport
import TibeeCompare.Report.NeededStacks
import TibeeCompare.Report.Documents
import TibeeCompare.Executions.TimingMetrics
import TibeeCompare.CriticalBlocks.Provenance
import TibeeCompare.Executions.StatusTotals
import TibeeCompare.Executions.Locality
import TibeeCompare.ExecutionBlocks.PunchBlock
import TibeeCompare.ExecutionBlocks.SpecialBlock
import TibeeCompare.Build.TibeeBuild
import TibeeCompare.BuildBlocks.Lockstep
import TibeeCompare.Build.Runs
import TibeeCompare.Build.HistoryCleanups
import TibeeCompare.Lib.Ghosts
import TibeeCompare.Db.GhostHistories
import TibeeCompare.Executions.StoredSamples
import TibeeCompare.BuildBlocks.Handovers
import TibeeCompare.Build.SavedExecutions
import TibeeCompare.Build.Sessions
import TibeeCompare.Build.Statistics
import TibeeCompare.CriticalBlocks.DiskIntervals
import TibeeCompare.Build.DiskSplits
import TibeeCompare.StacksBlocks.SampledStacks
import TibeeCompare.Lib.Budgets
import TibeeCompare.Executions.SampleTotals
import TibeeCompare.Symbols.Elf
import TibeeCompare.Build.SampleDurations
