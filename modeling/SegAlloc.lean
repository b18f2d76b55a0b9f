import SegAlloc.Machine.Memory
import SegAlloc.Machine.Word
import SegAlloc.Model.State
import SegAlloc.Model.FreeList
import SegAlloc.Model.Engine
import SegAlloc.Model.Api
import SegAlloc.Model.Check
import SegAlloc.View.Heap
import SegAlloc.View.Alloc
import SegAlloc.View.Inv
import SegAlloc.View.Coalesce
import SegAlloc.View.Fit
import SegAlloc.View.Malloc
import SegAlloc.View.Api
import SegAlloc.Refine.Rep
import SegAlloc.Refine.Access
import SegAlloc.Refine.ListState
import SegAlloc.Refine.FreeList
import SegAlloc.Refine.Retile
import SegAlloc.Refine.Coalesce
import SegAlloc.Refine.Fit
import SegAlloc.Refine.Malloc
import SegAlloc.Refine.Extend
import SegAlloc.Refine.Api
import SegAlloc.Trace.Reach
import SegAlloc.Trace.Walk
import SegAlloc.Trace.Shape
import SegAlloc.Trace.Payload
import SegAlloc.Trace.Lists
import SegAlloc.Trace.Malloc
import SegAlloc.Trace.Failure
import SegAlloc.Trace.BestFit
import SegAlloc.Trace.Check
import SegAlloc.Trace.Growth
