import Pristine.Kernel.ProcessLife
import Pristine.Kernel.SlabHeap
import Pristine.Kernel.Kmalloc
import Pristine.Kernel.Scheduler
import Pristine.Lib.Placement
import Pristine.Kernel.SchedulerSafety
import Pristine.Bsfs.Format
import Pristine.Bsfs.Fread
import Pristine.Bsfs.BlockCache
import Pristine.Kernel.Boot
import Pristine.Kernel.RoundRobin
import Pristine.Kernel.Interrupt
import Pristine.Kernel.Preemption
import Pristine.Kernel.SyscallReturn
import Pristine.Kernel.KernelHalf
import Pristine.Bsfs.Addressing
import Pristine.Bsfs.Alloc
import Pristine.Bsfs.Crc32
import Pristine.Bsfs.Host
import Pristine.Bsfs.Populate
import Pristine.Bsfs.Counters
import Pristine.Bsfs.StoreFile
import Pristine.Bsfs.Directory
import Pristine.Bsfs.HostTree
import Pristine.Bsfs.PopulateSpec
import Pristine.Bsfs.Image
import Pristine.Bsfs.PopulateMain
import Pristine.Bsfs.BufferBounds
import Pristine.Bsfs.ReadFailure
import Pristine.Bsfs.ResolvePath
import Pristine.Lib.Numeral
import Pristine.Tools.Ppm
import Pristine.Tools.PpmAgreement
import Pristine.Bsfs.DirentSlots
import Pristine.Bsfs.WriteBack
import Pristine.Kernel.FrameBudget
import Pristine.Kernel.HeapPages
import Pristine.Kernel.LowerSpace
import Pristine.Bsfs.Crc32Burst
import Pristine.Kernel.Arena
import Pristine.Kernel.AtPanic
import Pristine.Kernel.MemmapTotals
import Pristine.Kernel.Printf
import Pristine.Kernel.SlabLists
import Pristine.Lib.CellCopy
import Pristine.Libc.BlockCopy
import Pristine.Stage1.Memmap
import Pristine.Kernel.MixedPages
import Pristine.Kernel.SlabRegion
import Pristine.Kernel.VmmFree
import Pristine.Kernel.ElfImage
import Pristine.Bsfs.BitmapSearch
import Pristine.Bsfs.ReadBack
import Pristine.Stage2.LoadKernel
import Pristine.Bsfs.BlockRefs
import Pristine.Bsfs.DirentRefs
import Pristine.Bsfs.ExtractTree
import Pristine.Bsfs.Fsck
import Pristine.Bsfs.PanicIgnored
import Pristine.Bsfs.RoundTrip
import Pristine.Bsfs.OpenPath
