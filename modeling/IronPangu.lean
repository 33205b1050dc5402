import IronPangu.Lib.Method
import IronPangu.Lib.Ordered
import IronPangu.Ir.Serving
import IronPangu.Runtime.PrefixIndex.Lookup
import IronPangu.Native.Engine.Audits
import IronPangu.Native.Mirror.Runs
import IronPangu.Native.Ownership
import IronPangu.Native.Prepared.Replay
import IronPangu.ProgramEngine.Arguments
import IronPangu.Runtime.StatePool.Addressing
import IronPangu.Scheduler.Live.Runs
import IronPangu.Transfer.Protocol
import IronPangu.Transfer.Owned
import IronPangu.Plan.Invocations
import IronPangu.Compiler.RowSuffix
import IronPangu.Compiler.Agreement
import IronPangu.ProgramWorker.Cached
import IronPangu.Native.Engine.Configuration
import IronPangu.Native.Activation
import IronPangu.Native.ContinuationCopy
import IronPangu.Native.Initialization.Agreement
import IronPangu.Native.Initialization.Streaming
import IronPangu.Native.PageMap.Agreement
import IronPangu.Native.TokenPlan.Format
import IronPangu.Plan.DeviceBuffer.Binding
import IronPangu.Native.Parallel.Lockstep
import IronPangu.Plan.Planner.Compiled
import IronPangu.NativeWorker
import IronPangu.ProgramWorker.Boundary
import IronPangu.Execution.SlidingWindow
import IronPangu.Native.BatchGeometry
import IronPangu.Native.Linear.Sharded
import IronPangu.Native.CacheQuantization.RoundTrip
import IronPangu.Native.FixedLane.Masks
import IronPangu.Native.PageSpans
import IronPangu.Compiler.Checkpoint.Index
import IronPangu.Lib.Tiling
import IronPangu.Dsl.Spans
