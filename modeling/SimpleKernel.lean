import SimpleKernel.Lib.Program
import SimpleKernel.Lib.ByteStore
import SimpleKernel.Machine
import SimpleKernel.Layout
import SimpleKernel.Pmm
import SimpleKernel.Vmm
import SimpleKernel.DirectMap
import SimpleKernel.SwitchOver
import SimpleKernel.PmmInit
import SimpleKernel.Heap
import SimpleKernel.HeapTables
import SimpleKernel.HeapPages
import SimpleKernel.FrameOwnership
import SimpleKernel.HeapMemory
import SimpleKernel.Chunks
import SimpleKernel.Kfree
import SimpleKernel.Kmalloc
import SimpleKernel.WellFormed
import SimpleKernel.Growth
import SimpleKernel.HeapSafety
import SimpleKernel.Drain
import SimpleKernel.FirstFit
import SimpleKernel.ExactFree
import SimpleKernel.FrameStack
import SimpleKernel.RealMemory
import SimpleKernel.Elf
import SimpleKernel.BootData
import SimpleKernel.BootStack
import SimpleKernel.PageTables
import SimpleKernel.MapAlgebra
import SimpleKernel.GetMapping
import SimpleKernel.Lib.Ring
import SimpleKernel.RunQueue
import SimpleKernel.RoundRobin
import SimpleKernel.Console
import SimpleKernel.Terminal
import SimpleKernel.Lib.X86System
import SimpleKernel.Interrupts
import SimpleKernel.SwitchTo
import SimpleKernel.NewThread
import SimpleKernel.Preemption
import SimpleKernel.MemoryMap
import SimpleKernel.Lib.Numeral
import SimpleKernel.Number
import SimpleKernel.Symbols
import SimpleKernel.Format
import SimpleKernel.Scan
import SimpleKernel.Directives
import SimpleKernel.BufferSize
import SimpleKernel.StackTrace
import SimpleKernel.Buffer
import SimpleKernel.Strcat
import SimpleKernel.Lib.ThreeWay
import SimpleKernel.StringOrder
import SimpleKernel.Descriptors
import SimpleKernel.Lib.Refinement
import SimpleKernel.Lib.Pic8259
import SimpleKernel.Lib.Pit8253
import SimpleKernel.Untouched
import SimpleKernel.Payloads
import SimpleKernel.UserMemory
import SimpleKernel.TaskMemory
import SimpleKernel.PagedTasks
import SimpleKernel.SystemRuns
import SimpleKernel.Devices
import SimpleKernel.IrqTraffic
import SimpleKernel.DescriptorTables
import SimpleKernel.Screen
import SimpleKernel.Reports
import SimpleKernel.Exceptions
import SimpleKernel.MemoryReport
import SimpleKernel.PanicReport
import SimpleKernel.Lib.Turns
import SimpleKernel.Letters
import SimpleKernel.Capacity
import SimpleKernel.Isolation
import SimpleKernel.Boot
