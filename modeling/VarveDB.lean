import VarveDB.Authz.Authorizer
import VarveDB.Cache.DistinctCache
import VarveDB.Cache.MemoryUse
import VarveDB.Cache.ParquetCache
import VarveDB.Cache.SplitSnapshots
import VarveDB.Cache.TableIndexCache
import VarveDB.Catalog.ExactlyOnce
import VarveDB.Catalog.Reload
import VarveDB.Catalog.TokenGrants
import VarveDB.Checkpoint.Complete
import VarveDB.Checkpoint.FileCounters
import VarveDB.Cluster.HandOff
import VarveDB.Cluster.LastWriteWins
import VarveDB.Cluster.OneRowPerKey
import VarveDB.Cluster.PeerColumns
import VarveDB.Cluster.PeerSkip
import VarveDB.Compaction.Answers
import VarveDB.Compaction.Durability
import VarveDB.FileIndex.OwnerList
import VarveDB.FileIndex.PublisherComplete
import VarveDB.FileIndex.Rollup
import VarveDB.FileIndex.Sync
import VarveDB.LineProtocol.Builder
import VarveDB.ObjectStore.AdaptiveTransfer
import VarveDB.ObjectStore.SelfVerifyingCreate
import VarveDB.ProcessingEngine.PluginCache
import VarveDB.ProcessingEngine.Schedule
import VarveDB.ProcessingEngine.Serial
import VarveDB.Query.V1Database
import VarveDB.Server.RequestBody
import VarveDB.Wal.NotifyOrder
import VarveDB.Wal.Responses
import VarveDB.Wal.SnapshotMarker
import VarveDB.Wal.Watermark
import VarveDB.Write.AddedColumns
import VarveDB.Write.DeletionMarks
import VarveDB.Write.HardDeletions
import VarveDB.Write.LineErrors
import VarveDB.Write.Retention
import VarveDB.Write.RowKey
import VarveDB.Write.RowTime
import VarveDB.Write.Visible
