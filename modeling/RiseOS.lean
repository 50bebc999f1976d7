import RiseOS.Library.Runs
import RiseOS.Kernel.Pmm
import RiseOS.Frames.Bitmap
import RiseOS.Frames.Accounting
import RiseOS.Frames.Ownership
import RiseOS.Frames.Reserve
import RiseOS.Frames.Access
import RiseOS.Library.Refinement
import RiseOS.Frames.Sets
import RiseOS.Kernel.Rise
import RiseOS.Paging.Effects
import RiseOS.Paging.Hooks
import RiseOS.Paging.Init
import RiseOS.Paging.Growth
import RiseOS.Paging.Sharing
import RiseOS.Paging.Presence
import RiseOS.Paging.Limit
import RiseOS.Paging.Install
import RiseOS.Paging.Region
import RiseOS.Paging.Identity
import RiseOS.Paging.Coherence
import RiseOS.Kernel.Irq
import RiseOS.Interrupts.Dispatch
import RiseOS.Kernel.Isr
import RiseOS.Interrupts.Context
import RiseOS.Kernel.Liballoc
import RiseOS.Library.Links
import RiseOS.Library.Tiling
import RiseOS.Library.Numerals
import RiseOS.Library.Moves
import RiseOS.Libc.Memmove
import RiseOS.Libc.Bytes
import RiseOS.Kernel.Serial
import RiseOS.Serial.Itoa
import RiseOS.Serial.Format
import RiseOS.Serial.Sinks
import RiseOS.Heap.Tags
import RiseOS.Heap.Chunks
import RiseOS.Heap.Blocks
import RiseOS.Heap.Exclusive
import RiseOS.Heap.Calls
import RiseOS.Heap.Mapped
import RiseOS.Heap.Contract
import RiseOS.Heap.Sizes
import RiseOS.Heap.Search
import RiseOS.Library.Cover
import RiseOS.Heap.Tidy
import RiseOS.Heap.Whole
import RiseOS.Heap.Calloc
import RiseOS.Heap.Realloc
import RiseOS.Console.Cursor
import RiseOS.Kernel.Stdio
import RiseOS.Console.Printf
import RiseOS.Library.Locks
import RiseOS.Kernel.Threads
import RiseOS.Library.Uninterrupted
import RiseOS.Library.Stages
import RiseOS.Library.Linear
import RiseOS.Library.Linearize
import RiseOS.Concurrency.Exclusion
import RiseOS.Concurrency.Sequential
import RiseOS.Concurrency.Atomic
import RiseOS.Concurrency.Accounts
import RiseOS.Concurrency.Linear
import RiseOS.Library.Pic
import RiseOS.Interrupts.Delivery
import RiseOS.Library.Descriptors
import RiseOS.Kernel.Gdt
import RiseOS.Kernel.Idt
import RiseOS.Interrupts.Gates
import RiseOS.Library.Uart
import RiseOS.Kernel.SerialPort
import RiseOS.Serial.Wire
import RiseOS.Paging.Space
import RiseOS.Library.Sheet
import RiseOS.Console.Screen
import RiseOS.Interrupts.Fault
