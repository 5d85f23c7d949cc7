import TsOs.Library.ByteMemory
import TsOs.Library.LinkPath
import TsOs.Library.RegionTiling
import TsOs.Library.TextLayout
import TsOs.Library.CyclicScan
import TsOs.Library.Cutting
import TsOs.Library.Places
import TsOs.Library.Transition
import TsOs.Library.Ia32
import TsOs.Library.Traps
import TsOs.Library.Ia32Paging
import TsOs.Library.DescriptorTables
import TsOs.Library.InterruptController
import TsOs.Library.AtaDisk
import TsOs.Machine
import TsOs.Lib.Numbers
import TsOs.Lib.Printing
import TsOs.Lib.Numerals
import TsOs.Lib.Widths
import TsOs.Lib.Formats
import TsOs.Malloc.Allocator
import TsOs.Malloc.FreeList
import TsOs.Malloc.Invariant
import TsOs.Malloc.Kmalloc
import TsOs.Malloc.Kfree
import TsOs.Malloc.Runs
import TsOs.Malloc.Safety
import TsOs.Malloc.BootStack
import TsOs.Malloc.WrapAround
import TsOs.Malloc.BestFit
import TsOs.Malloc.Undo
import TsOs.Console.Model
import TsOs.Console.Window
import TsOs.Console.Screen
import TsOs.Console.Coherence
import TsOs.Console.Scrolling
import TsOs.Console.Accesses
import TsOs.Console.Builds
import TsOs.Console.StaleHistory
import TsOs.Paging.Frames
import TsOs.Paging.FrameSearch
import TsOs.Paging.FrameRuns
import TsOs.Paging.Model
import TsOs.Paging.Access
import TsOs.Paging.EarlyMap
import TsOs.Paging.Ownership
import TsOs.Paging.Regions
import TsOs.Paging.KernelStack
import TsOs.Paging.Mapping
import TsOs.Paging.Supply
import TsOs.Paging.Landing
import TsOs.Paging.RegionPages
import TsOs.Paging.AddressSpace
import TsOs.Paging.TempBalance
import TsOs.Tasking.Model
import TsOs.Tasking.Records
import TsOs.Tasking.Loading
import TsOs.Tasking.Isolation
import TsOs.Tasking.Sections
import TsOs.Tasking.LoadedImage
import TsOs.Tasking.NewSpaces
import TsOs.Tasking.Runs
import TsOs.Tasking.Switching
import TsOs.Tasking.RoundRobin
import TsOs.Tasking.Transfers
import TsOs.Tasking.TimeSlices
import TsOs.Tasking.Contexts
import TsOs.Tasking.ContextRuns
import TsOs.Drivers.Keyboard
import TsOs.Drivers.Serial
import TsOs.Kernel.Syscalls
import TsOs.Boot.DiskLoading
import TsOs.Boot.KernelSetup
import TsOs.Kernel.Stubs
import TsOs.Kernel.SystemCalls
import TsOs.Kernel.Gates
import TsOs.Kernel.Interrupts
import TsOs.Tasking.Translation
import TsOs.Tasking.KernelTasks
import TsOs.Tasking.FirstEntry
import TsOs.Kernel.Shell
import TsOs.Kernel.Terminal
import TsOs.Fat.Disk
import TsOs.Fat.Names
import TsOs.Fat.Tokens
import TsOs.Fat.Model
import TsOs.Fat.Layout
import TsOs.Drivers.Ata
import TsOs.Drivers.AtaTransfers
import TsOs.Drivers.AtaPrograms
import TsOs.Fat.Chains
import TsOs.Fat.Freeing
import TsOs.Fat.Contents
import TsOs.Fat.Lookup
import TsOs.Fat.Paths
import TsOs.Fat.Formatting
import TsOs.Fat.Volumes
import TsOs.Fat.Splitting
import TsOs.Fat.Deleting
import TsOs.Fat.Search
import TsOs.Fat.Writing
import TsOs.Fat.Overwriting
import TsOs.Fat.Tree
import TsOs.Fat.Edits
import TsOs.Fat.Subtrees
import TsOs.Fat.Reading
import TsOs.Fat.Positions
import TsOs.Fat.Chunks
import TsOs.Fat.RootReading
import TsOs.Fat.Allocation
import TsOs.Fat.Exhaustion
import TsOs.Fat.Creating
import TsOs.Fat.Slots
import TsOs.Fat.RootSlots
import TsOs.Fat.Placement
import TsOs.Fat.Links
import TsOs.Fat.RootRegion
import TsOs.Fat.Walks
import TsOs.Fat.OutOfClusters
import TsOs.Fat.Completed
import TsOs.Fat.Histories
import TsOs.Fat.Handles
import TsOs.Fat.Termination
import TsOs.Fat.Resolution
import TsOs.Fat.HandleBlocks
import TsOs.Fat.Namespace
import TsOs.Fat.RoundTrip
