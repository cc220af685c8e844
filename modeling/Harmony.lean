import Harmony.Retype.Entry
import Harmony.Lib.Bytes
import Harmony.Lib.Radix
import Harmony.Lib.Wp
import Harmony.Retype.Counter
import Harmony.Paging.Address
import Harmony.Machine
import Harmony.Retype.Frames
import Harmony.Retype.Table
import Harmony.Retype.Handles
import Harmony.Retype.Concurrent
import Harmony.KPtr
import Harmony.Ownership
import Harmony.Lib.X86
import Harmony.Trap
import Harmony.BumpAllocator
import Harmony.Paging.PageTable
import Harmony.Paging.Walk
import Harmony.Paging.MapTo
import Harmony.Boot.Load
import Harmony.Boot.Placing
import Harmony.Boot.Loops
import Harmony.Boot.Setup
import Harmony.Boot.Image
import Harmony.Boot.KernelHalf
import Harmony.Boot.Isolation
import Harmony.Boot.Twins
import Harmony.Boot.Leak
import Harmony.Caps.Trie
import Harmony.Caps.Slot
import Harmony.Retype.Classify
import Harmony.Caps.Kernel
import Harmony.Caps.Traffic
import Harmony.Caps.Operations
import Harmony.Caps.Confinement
import Harmony.Caps.Construct
import Harmony.Caps.ThreadCall
import Harmony.Caps.Level4
import Harmony.Caps.Switch
import Harmony.Allocation
import Harmony.Retype.Release
import Harmony.Retype.BootAlloc
import Harmony.Boot.Headers
import Harmony.Lib.Log
import Harmony.Boot.Copies
import Harmony.Boot.Rights
import Harmony.Paging.Failure
import Harmony.Caps.Resume
import Harmony.Lib.Script
import Harmony.Caps.Exhaust
import Harmony.Caps.Leaving
import Harmony.Caps.Syscall
import Harmony.Lib.Interleaving
import Harmony.Sync.OnceCell
import Harmony.Sync.LazyCell
import Harmony.Lib.Accesses
import Harmony.Sync.Cell
import Harmony.Sync.RefCell
import Harmony.Paging.Alignment
import Harmony.Paging.Decompose
import Harmony.Paging.DirectMap
import Harmony.Lib.Linear
import Harmony.Retype.LockFree
import Harmony.Paging.SharedEntry
import Harmony.Caps.System
import Harmony.Caps.Typing
import Harmony.Caps.Soundness
import Harmony.Boot.Enclosure
import Harmony.Caps.World
import Harmony.Boot.Kmain
import Harmony.Boot.Budget
import Harmony.Lib.Stack
import Harmony.Trap.Return
import Harmony.Paging.Space
import Harmony.Boot.Cost
import Harmony.Boot.Requirement
import Harmony.Boot.Start
