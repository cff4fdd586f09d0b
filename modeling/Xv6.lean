import Xv6.TransitionRuns
import Xv6.FreeRunningCounters
import Xv6.CriticalSections
import Xv6.PanicPrograms
import Xv6.ActionPaths
import Xv6.ByteBlocks
import Xv6.KernelParameters
import Xv6.LogAdmission
import Xv6.LogAdmissionInvariant
import Xv6.LogCapacity
import Xv6.PipeProtocol
import Xv6.PipeFifo
import Xv6.PipeWakeups
import Xv6.RedoLog
import Xv6.RedoDisk
import Xv6.CrashRecovery
import Xv6.ProcessTable
import Xv6.ProcessTree
import Xv6.ProcessTreeFork
import Xv6.ProcessTreeExit
import Xv6.ProcessSlots
import Xv6.ProcessIds
import Xv6.KillAndTrace
import Xv6.KillRuns
import Xv6.TraceRuns
import Xv6.Reaping
import Xv6.SlotOwnership
import Xv6.FileSystem
import Xv6.Directories
import Xv6.FileImage
import Xv6.FileCalls
import Xv6.BlockAllocation
import Xv6.FileGrowth
import Xv6.BlockRelease
import Xv6.InodeTable
import Xv6.InodeUpdates
import Xv6.FileContent
import Xv6.DirectoryEntries
import Xv6.SharedWriters
import Xv6.ShortWrites
import Xv6.FileArrays
import Xv6.FileActions
import Xv6.DirectoryLinks
import Xv6.PathWalk
import Xv6.LinkCalls
import Xv6.CreateCalls
import Xv6.OpenCalls
import Xv6.DenseFiles
import Xv6.ProcessCalls
import Xv6.SyscallWalks
import Xv6.NamespaceRuns
import Xv6.FailedCalls
import Xv6.CreateRoom
import Xv6.FailedOpens
import Xv6.PathComponents
import Xv6.SlotMaps
import Xv6.DirectoryMaps
import Xv6.ForkCalls
import Xv6.DirectoryIntegrity
import Xv6.InodeShortage
import Xv6.ActionWalks
import Xv6.DirectoryWalks
import Xv6.BlockOwnership
import Xv6.Console
import Xv6.ConsoleLines
import Xv6.ConsoleReads
import Xv6.LinkedRings
import Xv6.BufferCache
import Xv6.BufferOrder
import Xv6.BufferShortage
import Xv6.HeldLocks
import Xv6.Scheduling
import Xv6.SchedulingInvariant
import Xv6.SchedulingSections
import Xv6.SchedulingSwitch
import Xv6.SchedulingSteps
import Xv6.SchedulingRuns
import Xv6.SchedulingFrames
import Xv6.SleepCalls
import Xv6.SleepWakeup
import Xv6.ReferenceCounts
import Xv6.FileTable
import Xv6.RadixTables
import Xv6.PageTables
import Xv6.AddressSpaces
import Xv6.PageTableMaps
import Xv6.MemoryContents
import Xv6.PageTableGrowth
import Xv6.ProcessPageTables
import Xv6.ExecImages
import Xv6.FrameOwnership
import Xv6.AddressSpaceRuns
import Xv6.PipeReads
import Xv6.FileReads
import Xv6.UserTranslation
import Xv6.UserCopies
import Xv6.FileReadLengths
import Xv6.FileReferences
import Xv6.FileTableCalls
import Xv6.FileTableRuns
import Xv6.FileWrites
import Xv6.MkfsImage
import Xv6.MkfsBlocks
import Xv6.MkfsAppends
import Xv6.MkfsLayout
import Xv6.MkfsRuns
import Xv6.MkfsFinal
import Xv6.MkfsMount
import Xv6.MkfsImages
import Xv6.MkfsReading
import Xv6.ProcessContents
import Xv6.Sbrk
import Xv6.ForkedMemory
import Xv6.PatternMatching
import Xv6.SeparatedReads
import Xv6.MemoryMoves
import Xv6.TextBuffers
import Xv6.GrepLines
import Xv6.XargsRuns
import Xv6.PrimeSieve
import Xv6.PrimesPipeline
import Xv6.PrimesRuns
import Xv6.FindRuns
import Xv6.FileModels
import Xv6.FindMatches
import Xv6.ShellTokens
import Xv6.ShellParser
import Xv6.ShellGrammar
import Xv6.ShellDerivations
import Xv6.ShellWords
import Xv6.ShellAppend
import Xv6.ShellProcesses
import Xv6.ShellWiring
import Xv6.ShellInvariant
import Xv6.ShellRuns
import Xv6.BlockBitmap
import Xv6.InterruptNesting
