import SoKernel.Words
import SoKernel.Lists
import SoKernel.Mkfs
import SoKernel.Ring
import SoKernel.FreeList
import SoKernel.Kheap
import SoKernel.Kmalloc
import SoKernel.HeapRuns
import SoKernel.HeapLaws
import SoKernel.Pfa
import SoKernel.PfaInit
import SoKernel.FrameOwnership
import SoKernel.Pages
import SoKernel.Paging
import SoKernel.PageTables
import SoKernel.PageRefinement
import SoKernel.Process
import SoKernel.KernelAccess
import SoKernel.AddressSpace
import SoKernel.FrameCount
import SoKernel.Kmain
import SoKernel.System
import SoKernel.Scheduler
import SoKernel.FrameAccounts
import SoKernel.Worlds
import SoKernel.Isolation
import SoKernel.StackReach
import SoKernel.PidLife
import SoKernel.Stack
import SoKernel.Processor
import SoKernel.Loading
import SoKernel.PagedLoading
import SoKernel.Spawning
import SoKernel.Terminal
import SoKernel.Console
import SoKernel.Echo
import SoKernel.RoundRobin
import SoKernel.LineInput
import SoKernel.Syscalls
import SoKernel.CallerBuffers
import SoKernel.FileListing
import SoKernel.ProcessListing
import SoKernel.UserPages
import SoKernel.Ulib
import SoKernel.StackFrames
import SoKernel.KernelThreads
import SoKernel.KernelStacks
import SoKernel.ContextSwitch
import SoKernel.Transparency
import SoKernel.Simulation
import SoKernel.Footprint
import SoKernel.Bystanders
import SoKernel.Cached
import SoKernel.Tlb
import SoKernel.Chips
import SoKernel.Pic
import SoKernel.Interrupts
import SoKernel.Segmentation
import SoKernel.Descriptors
import SoKernel.Programs
import SoKernel.Dialogue
import SoKernel.Userland
import SoKernel.Contract
import SoKernel.Shell
import SoKernel.Top
