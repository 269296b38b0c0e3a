import WfOpt.Common.HugeIntDivMod
import WfOpt.Common.Interval
import WfOpt.Common.IsoWeek
import WfOpt.Common.TimestampText
import WfOpt.Common.ValiditySlice
import WfOpt.Function.Arithmetic
import WfOpt.Function.ILike
import WfOpt.Index.ArtRuns
import WfOpt.Index.SegmentLayout
import WfOpt.Optimizer.CombinedFilters
import WfOpt.Optimizer.DateTruncSimplification
import WfOpt.Optimizer.Distributivity
import WfOpt.Sort.HashedSortRuns
import WfOpt.Sort.InMemoryKey
import WfOpt.Sort.KeyDecode
import WfOpt.Sort.MergeAccounting
import WfOpt.Sort.PartitionBoundaries
import WfOpt.Sort.PartitionPruning
import WfOpt.Storage.Checkpoint
import WfOpt.Storage.Compression.BitpackingFetch
import WfOpt.Storage.Compression.ValiditySegment
import WfOpt.Transaction.Cleanup
import WfOpt.Transaction.RevertCommit
import WfOpt.Window.ChunkedRank
import WfOpt.Window.ConstantAggregatorRuns
import WfOpt.Window.DistinctEvaluate
import WfOpt.Window.FillReads
import WfOpt.Window.FrameValues
import WfOpt.Window.FramedExecutor
import WfOpt.Window.GroupsFrames
import WfOpt.Window.IndexColumn
import WfOpt.Window.MergeSortStagesRuns
import WfOpt.Window.Ntile
import WfOpt.Window.PartitionStarts
import WfOpt.Window.RangeFrames
import WfOpt.Window.SegmentTreeThreads
import WfOpt.Window.SourceRuns
