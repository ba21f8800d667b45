import KoalemOS.Library.Words
import KoalemOS.Library.ByteMemory
import KoalemOS.Library.ByteCopy
import KoalemOS.Library.Outcome
import KoalemOS.Library.TableTree
import KoalemOS.Library.LinkedList
import KoalemOS.Library.Segments
import KoalemOS.Library.LockOrder
import KoalemOS.Library.WordStores
import KoalemOS.Library.Recency
import KoalemOS.Library.Reachability
import KoalemOS.Library.WritableBits
import KoalemOS.Library.SlotHandOut
import KoalemOS.Library.SharedWords
import KoalemOS.Mmap.Basic
import KoalemOS.Mmap.FreePages
import KoalemOS.Mmap.Runs
import KoalemOS.Mmap.GetRange
import KoalemOS.Mmap.Canonical
import KoalemOS.Smp.InterProcessorCall
import KoalemOS.Smp.AfterBoot
import KoalemOS.Smp.StartUp
import KoalemOS.Smp.Joining
import KoalemOS.Smp.StaleAcks
import KoalemOS.Smp.Locks
import KoalemOS.Paging.Machine
import KoalemOS.Paging.Entries
import KoalemOS.Paging.MapPage
import KoalemOS.Paging.Window
import KoalemOS.Paging.Tree
import KoalemOS.Paging.WindowStores
import KoalemOS.Paging.MapPageSpec
import KoalemOS.Paging.Refinement
import KoalemOS.Paging.FreeFrames
import KoalemOS.Paging.WriteProtect
import KoalemOS.Paging.LeafEdits
import KoalemOS.Paging.Attributes
import KoalemOS.Paging.SplitPage
import KoalemOS.Paging.Kept
import KoalemOS.Paging.FirstFrames
import KoalemOS.Paging.SplitFrames
import KoalemOS.Paging.LargePages
import KoalemOS.Paging.PageRanges
import KoalemOS.Boot.Loader
import KoalemOS.Boot.NextTable
import KoalemOS.Boot.AddPageMapping
import KoalemOS.Boot.LoadSegment
import KoalemOS.Boot.LoadLoop
import KoalemOS.Boot.Completes
import KoalemOS.Boot.Faithful
import KoalemOS.Boot.Window
import KoalemOS.Boot.Mappings
import KoalemOS.Boot.GraphicsMode
import KoalemOS.Heap.Allocator
import KoalemOS.Heap.Pages
import KoalemOS.Heap.Blocks
import KoalemOS.Heap.Headers
import KoalemOS.Heap.Entries
import KoalemOS.Heap.Merging
import KoalemOS.Heap.Frames
import KoalemOS.Heap.State
import KoalemOS.Heap.Kmalloc
import KoalemOS.Heap.Layout
import KoalemOS.Heap.Freed
import KoalemOS.Heap.Kfree
import KoalemOS.Heap.Filled
import KoalemOS.Heap.Runs
import KoalemOS.Heap.Trimming
import KoalemOS.Heap.FrameOwnership
import KoalemOS.Heap.Copies
import KoalemOS.Heap.Resizing
import KoalemOS.Heap.Shrinking
import KoalemOS.Heap.Growing
import KoalemOS.Heap.Coalescing
import KoalemOS.Heap.Clients
import KoalemOS.Heap.HugeSizes
import KoalemOS.Heap.VirtMmap
import KoalemOS.Heap.VirtMappings
import KoalemOS.Heap.MappingRuns
import KoalemOS.Heap.PhysMmap
import KoalemOS.Heap.ConsistencyCheck
import KoalemOS.Libc.Strtol
import KoalemOS.Libc.Subject
import KoalemOS.Libc.DigitLoop
import KoalemOS.Libc.StrtolEnd
import KoalemOS.Libc.DigitRounds
import KoalemOS.Libc.StrtolValue
import KoalemOS.Libc.StrtolReads
import KoalemOS.Libc.Memcmp
import KoalemOS.Libc.Strcmp
import KoalemOS.Libc.Memmove
import KoalemOS.Libc.Strstr
import KoalemOS.Libc.Qsort
import KoalemOS.Libc.QsortElements
import KoalemOS.Libc.Memcpy
import KoalemOS.Libc.Strchr
import KoalemOS.Libc.Threads
import KoalemOS.Graphics.GlyphCache
import KoalemOS.Graphics.GlyphBitmap
import KoalemOS.Graphics.Transparency
import KoalemOS.Graphics.Replacement
import KoalemOS.Graphics.Cursor
import KoalemOS.Graphics.Mapping
import KoalemOS.Graphics.ScreenLock
import KoalemOS.Graphics.Terminal
import KoalemOS.Interrupts.Gates
import KoalemOS.Interrupts.Vectors
import KoalemOS.Interrupts.ApicTimer
import KoalemOS.Interrupts.TaskSegment
import KoalemOS.Acpi.Tables
import KoalemOS.Acpi.EntryReads
import KoalemOS.Pci.Probing
import KoalemOS.Pci.BarDecoding
import KoalemOS.Pci.FindDevices
import KoalemOS.Pci.Groups
import KoalemOS.Pci.TableReads
import KoalemOS.Pci.Windows
import KoalemOS.Smp.ApStart
import KoalemOS.Smp.ApHandOut
import KoalemOS.Smp.StartBarrier
import KoalemOS.Smp.TlsDone
import KoalemOS.Smp.ApBoot
import KoalemOS.Heap.InitMmap
import KoalemOS.Heap.InitMmapFrames
import KoalemOS.Heap.InitMmapTables
import KoalemOS.Heap.InitMemory
import KoalemOS.Smp.ImageWords
import KoalemOS.Smp.KernelEntry
import KoalemOS.Library.AtomicSteps
import KoalemOS.Paging.EditSteps
import KoalemOS.Paging.EditMoments
import KoalemOS.Smp.TlbShootdown
