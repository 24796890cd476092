import CkptKernel.AddressSpace
import CkptKernel.BlockMap
import CkptKernel.BlockOwnership
import CkptKernel.BlockRuns
import CkptKernel.BufferCache
import CkptKernel.CallRuns
import CkptKernel.CaptureTable
import CkptKernel.Checkpoint
import CkptKernel.CheckpointFile
import CkptKernel.CheckpointImage
import CkptKernel.Console
import CkptKernel.DescriptorCalls
import CkptKernel.DescriptorSafety
import CkptKernel.DescriptorSharing
import CkptKernel.Directory
import CkptKernel.DirectoryUpdate
import CkptKernel.DiskView
import CkptKernel.EntryRoom
import CkptKernel.Exec
import CkptKernel.FailedCalls
import CkptKernel.FileBytes
import CkptKernel.FileContents
import CkptKernel.FileCounts
import CkptKernel.FileRead
import CkptKernel.FileWrites
import CkptKernel.FreeMap
import CkptKernel.Fs
import CkptKernel.FsLayout
import CkptKernel.FsView
import CkptKernel.Grep.Lines
import CkptKernel.Grep.Matcher
import CkptKernel.GroupCommit
import CkptKernel.HeaderFormat
import CkptKernel.InodeRelease
import CkptKernel.InodeTable
import CkptKernel.Kernel
import CkptKernel.KernelState
import CkptKernel.LazyPages
import CkptKernel.Lib.CString
import CkptKernel.Lib.Code
import CkptKernel.Lib.Descriptors
import CkptKernel.Lib.LinkedCells
import CkptKernel.Lib.LittleEndian
import CkptKernel.Lib.LockOrder
import CkptKernel.Lib.Machine
import CkptKernel.Lib.Ownership
import CkptKernel.Lib.RadixTree
import CkptKernel.Lib.RingBuffer
import CkptKernel.Lib.TableSum
import CkptKernel.Lib.WriteSeq
import CkptKernel.Log
import CkptKernel.LogCrash
import CkptKernel.LogDisk
import CkptKernel.LogReservation
import CkptKernel.Lookup
import CkptKernel.Malloc.Arena
import CkptKernel.Malloc.FreeList
import CkptKernel.Malloc.Runs
import CkptKernel.Memory
import CkptKernel.NameCalls
import CkptKernel.NameChanges
import CkptKernel.NameEffects
import CkptKernel.NameTree
import CkptKernel.PageMap
import CkptKernel.Param
import CkptKernel.PathResolution
import CkptKernel.PipeCapture
import CkptKernel.PipeRing
import CkptKernel.PipeWakeup
import CkptKernel.Printf
import CkptKernel.ProcLockOrder
import CkptKernel.ProcLocks
import CkptKernel.ProcMoves
import CkptKernel.ProcReaping
import CkptKernel.ProcRecycling
import CkptKernel.ProcTable
import CkptKernel.QuietCalls
import CkptKernel.RestoreFiles
import CkptKernel.RestoreMemory
import CkptKernel.RestoreRun
import CkptKernel.SafeCalls
import CkptKernel.SafeRestore
import CkptKernel.Shell.Grammar
import CkptKernel.Shell.Parser
import CkptKernel.Shell.Tokens
import CkptKernel.Shell.Words
import CkptKernel.SpaceCalls
import CkptKernel.SpaceExec
import CkptKernel.SpaceKeeping
import CkptKernel.SpaceRuns
import CkptKernel.Sv39
import CkptKernel.Syscalls
import CkptKernel.Types
import CkptKernel.UserMemory
