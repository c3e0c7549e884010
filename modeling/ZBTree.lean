import ZBTree.MapContract
import ZBTree.ScanContract
import ZBTree.Readers
import ZBTree.DirectoryContract
import ZBTree.LeafLayout
import ZBTree.BlockOwners
import ZBTree.SplitCrash
import ZBTree.LogCrash
import ZBTree.LongRecords
import ZBTree.PoolBounds
import ZBTree.FillBounds
import ZBTree.CacheContract
import ZBTree.CachePairs
import ZBTree.FindPurity
import ZBTree.FreshMemory
import ZBTree.Descents
import ZBTree.InnerIndex
import ZBTree.HalfPairs
import ZBTree.LeafEnumeration
import ZBTree.FreedHeader
import ZBTree.SegmentLimits
import ZBTree.RootLookup
import ZBTree.QuickInsert
import ZBTree.CacheFrontier
import ZBTree.LeafLocks
import ZBTree.InlinePairs
import ZBTree.BitmapHelpers
import ZBTree.FingerDiffer
import ZBTree.VariableKeys
import ZBTree.MergeInner
import ZBTree.Bulkload
import ZBTree.RecoveryInsert
import ZBTree.LiveRecords
import ZBTree.PoolContracts
import ZBTree.ReplayContract
import ZBTree.DurablePools
