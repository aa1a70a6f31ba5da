import FlapjackOS.Malloc.Contents
import FlapjackOS.Paging.Populate
import FlapjackOS.Paging.Translation
import FlapjackOS.Scheduling.Queue
import FlapjackOS.Sync.SpinLock
import FlapjackOS.Scheduling.Monitor
import FlapjackOS.Common.Counting
import FlapjackOS.Terminal.Typing
import FlapjackOS.Terminal.History
import FlapjackOS.Terminal.Session
import FlapjackOS.Drivers.Keyboard
import FlapjackOS.Drivers.PitTimer
import FlapjackOS.Segments.Gdt
import FlapjackOS.Paging.Replacement
import FlapjackOS.Paging.Adoption
import FlapjackOS.Paging.EntryFields
import FlapjackOS.Malloc.Alignment
import FlapjackOS.Elf.Clear
import FlapjackOS.Malloc.Creation
import FlapjackOS.Boot.Placement
import FlapjackOS.Boot.Bounds
import FlapjackOS.Boot.KernelRegion
import FlapjackOS.Boot.DirectoryEntries
import FlapjackOS.Common.Writes
import FlapjackOS.Interrupts.Acknowledgement
import FlapjackOS.Interrupts.Descriptor
import FlapjackOS.Context.Alignment
import FlapjackOS.Elf.Contents
import FlapjackOS.Elf.Symbolicator
import FlapjackOS.Paging.Coherence
import FlapjackOS.Common.Comparison
import FlapjackOS.Common.Numerals
import FlapjackOS.Common.Strstr
import FlapjackOS.Common.Scanning
import FlapjackOS.Malloc.Calloc
import FlapjackOS.Common.RingLifetimes
import FlapjackOS.Common.Either
