import DewDB.TermDurability
import DewDB.CommitSafety
import DewDB.LogTerms
import DewDB.ConditionalWrites
import DewDB.RouterForward
import DewDB.ResetSafety
import DewDB.HandoverReads
import DewDB.FsyncSafety
import DewDB.InstallSafety
import DewDB.SnapshotShip
import DewDB.FencedLogSafety
import DewDB.ChangefeedOrder
import DewDB.LeaseSafety
import DewDB.ReconfigureSafety
import DewDB.ViewSafety
import DewDB.ReadIndexSafety
import DewDB.CatalogMerge
import DewDB.ClusterMeta
import DewDB.AdoptionOrder
import DewDB.KeyOwnership
import DewDB.ViewRings
import DewDB.DurableView
import DewDB.OwnViewValid
import DewDB.DurableOrder
import DewDB.DurableAgreement
import DewDB.DurableViewSafety
import DewDB.StagedReads
import DewDB.FollowerCommit
import DewDB.AdminPlans
import DewDB.ViewIds
import DewDB.ViewIdSafety
import DewDB.SchemaChange
import DewDB.RefusedChange
import DewDB.QuorumExact
import DewDB.JsonValue
import DewDB.QuerySort
import DewDB.IndexProbe
import DewDB.SecondaryIndex
import DewDB.QueryScan
import DewDB.QueryPages
import DewDB.SortedPages
import DewDB.LittleEndian
import DewDB.PositionSlots
import DewDB.WatermarkSaves
import DewDB.WatermarkSafety
import DewDB.WatermarkRetry
import DewDB.RouterQuery
import DewDB.RouterPages
import DewDB.RouterSorted
import DewDB.WebhookDelivery
import DewDB.WebhookInvariant
import DewDB.WebhookSafety
import DewDB.WebhookRuns
import DewDB.FrameBytes
import DewDB.JsonOrder
import DewDB.StreamBatches
import DewDB.IntegerCompare
import DewDB.Aggregation
import DewDB.AggregationMetrics
import DewDB.AggregationMerge
import DewDB.ChunkedReader
import DewDB.SnapshotWire
import DewDB.SnapshotCodec
import DewDB.InlineAccounts
import DewDB.AccountBalance
import DewDB.AccountRuns
import DewDB.FrameScan
import DewDB.TornTail
import DewDB.FrameReaders
import DewDB.CorruptionSafety
import DewDB.PeerRecovery
import DewDB.PeerRecoverySafety
import DewDB.RangeMap
import DewDB.Clockwise
import DewDB.RingLaws
import DewDB.RingMovement
import DewDB.PercentCoding
import DewDB.RouteTable
import DewDB.Authorization
import DewDB.ForwardPaths
import DewDB.BulkWrites
import DewDB.ExpirySafety
import DewDB.FlowControl
import DewDB.HandoverCleanup
import DewDB.SystemCollections
import DewDB.RecoveredIndexes
import DewDB.IndexBuilds
import DewDB.IndexExactness
import DewDB.IndexedQuery
import DewDB.EndpointIdentity
import DewDB.Base64
import DewDB.JsonObjects
import DewDB.MergePatch
import DewDB.Projection
import DewDB.FilterParsing
import DewDB.FilterGrammar
import DewDB.EntityTags
import DewDB.PeerBudget
import DewDB.FramedStream
import DewDB.SseReader
import DewDB.PartitionIdentity
import DewDB.KeyedSort
import DewDB.Rebalance
