import Fos.Base
import Fos.Boot.Booted
import Fos.Boot.KernelSpace
import Fos.Boot.KernelVM
import Fos.Boot.Tables
import Fos.Conc.KSemaphore
import Fos.Conc.KSpinLock
import Fos.Conc.KernelThreads
import Fos.Conc.SleepLock
import Fos.Console.InputBuffer
import Fos.Console.Keyboard
import Fos.Console.Readline
import Fos.Console.Screen
import Fos.Cpu.BoundedWait
import Fos.Cpu.Calls
import Fos.Cpu.Clock
import Fos.Cpu.ExitAndKill
import Fos.Cpu.Fifo
import Fos.Cpu.KillSteps
import Fos.Cpu.Moves
import Fos.Cpu.Placement
import Fos.Cpu.Places
import Fos.Cpu.PriorityRace
import Fos.Cpu.Run
import Fos.Cpu.Scheduler
import Fos.Cpu.Waiting
import Fos.Disk.PageCode
import Fos.Disk.PageFile
import Fos.Disk.PageFileRun
import Fos.Fault.Aging
import Fos.Fault.ClockHand
import Fos.Fault.Contents
import Fos.Fault.DeletedTables
import Fos.Fault.DemandPaging
import Fos.Fault.EnvFree
import Fos.Fault.Exchange
import Fos.Fault.FreedTables
import Fos.Fault.Handler
import Fos.Fault.HeapPages
import Fos.Fault.KernelTables
import Fos.Fault.LegalFaults
import Fos.Fault.Optimal
import Fos.Fault.OptimalFaults
import Fos.Fault.OwnFrames
import Fos.Fault.Pages
import Fos.Fault.ReferenceStream
import Fos.Fault.Returns
import Fos.Fault.Steps
import Fos.Fault.WorkingSet
import Fos.Heap.BlockBytes
import Fos.Heap.BlockContents
import Fos.Heap.DynAlloc
import Fos.Heap.DynAllocInv
import Fos.Heap.DynAllocRun
import Fos.Heap.FailedShares
import Fos.Heap.FreeListCode
import Fos.Heap.HeapCopies
import Fos.Heap.HeapUse
import Fos.Heap.HeldFrames
import Fos.Heap.InverseMap
import Fos.Heap.KernelBlocks
import Fos.Heap.KernelChanges
import Fos.Heap.KernelCode
import Fos.Heap.KernelHeap
import Fos.Heap.KernelHeapRun
import Fos.Heap.KernelLock
import Fos.Heap.KernelLoops
import Fos.Heap.KernelPages
import Fos.Heap.Krealloc
import Fos.Heap.LiveBlocks
import Fos.Heap.MergedRanges
import Fos.Heap.PageRequests
import Fos.Heap.ReallocBlock
import Fos.Heap.ResizeBlocks
import Fos.Heap.ResizePages
import Fos.Heap.ShrinkPages
import Fos.Heap.SinglePages
import Fos.Heap.SizeTableRun
import Fos.Heap.UserHeap
import Fos.Heap.UserHeapLists
import Fos.Heap.UserHeapRun
import Fos.Heap.WaitingLoop
import Fos.Lib.Backed
import Fos.Lib.BitHistory
import Fos.Lib.ByteMemory
import Fos.Lib.Chain
import Fos.Lib.Chunks
import Fos.Lib.Extent
import Fos.Lib.LinkedList
import Fos.Lib.Phases
import Fos.Lib.Placed
import Fos.Lib.RefCount
import Fos.Lib.Replacement
import Fos.Lib.Ring
import Fos.Lib.RingBuffer
import Fos.Lib.Runs
import Fos.Lib.StateCode
import Fos.Lib.Trace
import Fos.Lib.WriteBack
import Fos.Lists.Concat
import Fos.Lists.Macros
import Fos.Memory.Frame
import Fos.Memory.KernelReady
import Fos.Memory.LooseFrames
import Fos.Memory.PagingHelpers
import Fos.Memory.References
import Fos.Memory.ReferencesRun
import Fos.Print.Cprintf
import Fos.Print.Directives
import Fos.Print.Events
import Fos.Print.Format
import Fos.Print.Snprintf
import Fos.Proc.Directories
import Fos.Proc.EnvIds
import Fos.Proc.KernelStacks
import Fos.Proc.LoadedPages
import Fos.Proc.Loader
import Fos.Proc.Machine
import Fos.Proc.PowerCeil
import Fos.Proc.SegmentHeaders
import Fos.Proc.SegmentImages
import Fos.Proc.WrittenPages
import Fos.Shared.FailedCreate
import Fos.Shared.HeapObjects
import Fos.Shared.Holds
import Fos.Shared.LargeObject
import Fos.Shared.Names
import Fos.Shared.Objects
import Fos.Shared.RepeatedGets
import Fos.Strings.Decimal
import Fos.Strings.MemoryFill
import Fos.Strings.Split
