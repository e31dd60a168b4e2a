import MissyMicro.BootMap
import MissyMicro.BootPaging
import MissyMicro.BlockRegions
import MissyMicro.ContiguousBlocks
import MissyMicro.PageMapping
import MissyMicro.MapExhaustion
import MissyMicro.PageOwnership
import MissyMicro.KernelSpace
import MissyMicro.BreakCalls
import MissyMicro.KernelHeap
import MissyMicro.HeapRuns
import MissyMicro.FreeList
import MissyMicro.HeaderRecords
import MissyMicro.HeapShape
import MissyMicro.BlockAccounting
import MissyMicro.HeapWindow
import MissyMicro.ArrayQueues
import MissyMicro.KeyboardInterrupts
import MissyMicro.CharDevices
import MissyMicro.LineInput
import MissyMicro.AddressSpaces
import MissyMicro.PagingTakeover
import MissyMicro.MemorySize
import MissyMicro.LineBuffer
import MissyMicro.RequestSizes
import MissyMicro.CommandLoop
import MissyMicro.CommandDispatch
import MissyMicro.FormatReads
import MissyMicro.KeyboardBounds
import MissyMicro.PrintPaths
import MissyMicro.ShiftState
import MissyMicro.DeviceNames
import MissyMicro.GuardedTables
import MissyMicro.SegmentDescriptors
import MissyMicro.InterruptControllers
import MissyMicro.IntervalTimer
import MissyMicro.AcpiTables
import MissyMicro.NumberConversion
import MissyMicro.BasePrefixes
import MissyMicro.BlockFill
import MissyMicro.Comparisons
import MissyMicro.StringCopies
import MissyMicro.InterruptRuns
import MissyMicro.PanicDiagnosis
