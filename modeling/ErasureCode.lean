import ErasureCode.IsaEC.Bounds
import ErasureCode.IsaEC.Dispatch
import ErasureCode.IsaEC.Failure
import ErasureCode.IsaEC.PartialBlocks
import ErasureCode.IsaEC.Schedules
import ErasureCode.IsaEC.SharedPointers
import ErasureCode.IsaEC.Trust
import ErasureCode.Isal.Increments
import ErasureCode.Isal.Limits
import ErasureCode.Scheduler.PaddingLaw
import ErasureCode.Scheduler.Pipeline
import ErasureCode.Scheduler.StripFirst
import ErasureCode.Ssd.Reports
import ErasureCode.Tests.ParaSsdRead
import ErasureCode.Tests.TotalSize
