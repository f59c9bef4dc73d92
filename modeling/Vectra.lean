import Vectra.Lib.Run
import Vectra.Lib.Refine
import Vectra.Lib.Scan
import Vectra.Lib.Threads
import Vectra.Lib.Chain
import Vectra.Lib.Bytes
import Vectra.Lib.Record
import Vectra.Lib.RadixTree
import Vectra.Lib.Rv64
import Vectra.Basic
import Vectra.Mm.Physframe
import Vectra.Mm.FrameInvariant
import Vectra.Mm.FrameRuns
import Vectra.Mm.FrameOrder
import Vectra.Mm.Slab
import Vectra.Mm.SlabInvariant
import Vectra.Mm.SlabFamily
import Vectra.Mm.SlabRuns
import Vectra.Mm.SlabPeak
import Vectra.Mm.SlabStacks
import Vectra.Mm.SlabCarving
import Vectra.Mm.Kheap
import Vectra.Mm.FrameSpans
import Vectra.Mm.FrameBytes
import Vectra.Mm.FrameRegions
import Vectra.Mm.KheapInvariant
import Vectra.Mm.KheapCaches
import Vectra.Mm.KheapBlocks
import Vectra.Mm.KheapBoot
import Vectra.Mm.KheapRuns
import Vectra.Mm.KheapOrder
import Vectra.Mm.KheapFrames
import Vectra.Mm.KheapContents
import Vectra.Mm.KheapStore
import Vectra.Mm.KheapSizes
import Vectra.Mm.FrameRace
import Vectra.Mm.FrameClients
import Vectra.Mm.Init
import Vectra.Mm.BootStack
import Vectra.Mm.BootHeapRuns
import Vectra.Mm.BootFrames
import Vectra.Mm.BootCaches
import Vectra.Mm.Tables
import Vectra.Libkern.Hash
import Vectra.Ob.Object
import Vectra.Ob.SlabSizes
import Vectra.Ob.Cap
import Vectra.Riscv.TrapVector
import Vectra.Riscv.Timer
import Vectra.Arm64.Timer
import Vectra.Riscv.KernelTrap
import Vectra.Riscv.Paging
import Vectra.Riscv.PageTree
import Vectra.Riscv.PageRuns
import Vectra.Riscv.TableCount
import Vectra.Riscv.TableRoom
import Vectra.Riscv.BootTables
import Vectra.Riscv.Sv39
import Vectra.Libkern.HashRuns
import Vectra.Libkern.Klog
import Vectra.Libkern.String
import Vectra.Libkern.Numerals
import Vectra.Libkern.Format
import Vectra.Lib.Framing
import Vectra.Libkern.Log
import Vectra.Ob.Heap
import Vectra.Ob.Steps
import Vectra.Ob.Ledger
import Vectra.Ob.LedgerSteps
import Vectra.Ob.Counts
import Vectra.Ob.ObjectTest
import Vectra.Ob.CapRuns
import Vectra.Ob.Authority
import Vectra.Ob.Registry
import Vectra.Ob.Leaks
import Vectra.Ob.Lifetime
import Vectra.Sync.Atomic
import Vectra.Sync.Spinlock
import Vectra.Sync.AtomicRuns
import Vectra.Sync.Sections
import Vectra.Ob.GrantHints
import Vectra.Ob.LockOrder
import Vectra.Ob.RefRace
import Vectra.Riscv.VmmInit
import Vectra.Riscv.IdentityMap
import Vectra.Riscv.EnterUsermode
import Vectra.Riscv.UserTable
import Vectra.Ob.Boot
import Vectra.Ob.Allocations
import Vectra.Riscv.DumpRegisters
import Vectra.Arm64.SpaceRuns
import Vectra.Arm64.FailedUnmap
import Vectra.Arm64.Pool
import Vectra.Arm64.AsidPool
import Vectra.Arm64.RootSteps
import Vectra.Arm64.RootRuns
import Vectra.Arm64.Vectors
import Vectra.Arm64.DumpRegisters
import Vectra.Platform.Gic
import Vectra.Platform.GicDispatch
