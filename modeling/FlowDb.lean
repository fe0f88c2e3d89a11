import FlowDb.OrderedMap
import FlowDb.WalLog
import FlowDb.JsonSessions
import FlowDb.Compaction
import FlowDb.PointReads
import FlowDb.ExpiryReads
import FlowDb.ScanResults
import FlowDb.ScanSteps
import FlowDb.ReadAgreement
import FlowDb.RangeDeletes
import FlowDb.TornLog
import FlowDb.WalRuns
import FlowDb.StrandedWrites
import FlowDb.ConcurrentCommits
import FlowDb.CrashedWriters
import FlowDb.CrashRecovery
import FlowDb.MaintenanceSteps
import FlowDb.SstLedger
import FlowDb.SstIds
import FlowDb.FreedIds
import FlowDb.ReadViews
import FlowDb.OverlappingReads
import FlowDb.ReadsDuringCompaction
import FlowDb.SstFormat
import FlowDb.FieldWidths
import FlowDb.LineLog
import FlowDb.ManifestFile
import FlowDb.BloomRuns
import FlowDb.IndexAgreement
import FlowDb.GcVisibility
import FlowDb.QueryResults
import FlowDb.StoreIsolation
import FlowDb.StoreDeletion
import FlowDb.BlockPruning
import FlowDb.BlockLookup
import FlowDb.TransactionReads
import FlowDb.SchemaRecords
import FlowDb.LatestReads
import FlowDb.RangeCompaction
import FlowDb.TransactionLookups
import FlowDb.CompactionOrder
import FlowDb.FailedFlushes
import FlowDb.TruthfulResults
import FlowDb.SequenceNumbers
import FlowDb.LruCache
import FlowDb.BlockCaches
import FlowDb.BitFlip
import FlowDb.WalBitErrors
import FlowDb.ShortBlocks
import FlowDb.UnreadableBlocks
import FlowDb.TtlArithmetic
import FlowDb.PatchRecord
import FlowDb.AutoIncrementIds
import FlowDb.IndexMaintenance
import FlowDb.LateIndexes
import FlowDb.SchemaChangesKept
import FlowDb.AppliedStores
import FlowDb.LegalCommits
import FlowDb.CommitOrders
import FlowDb.QuerySlices
import FlowDb.Binary64
import FlowDb.IndexOrder
import FlowDb.IndexLookups
import FlowDb.IndexRanges
import FlowDb.PrimaryKeys
import FlowDb.SortedTables
import FlowDb.CheckedReads
import FlowDb.WalReads
import FlowDb.SstReads
import FlowDb.WalAgreement
import FlowDb.BlockSearch
import FlowDb.PrefixRanges
import FlowDb.Backpressure
import FlowDb.ConfigSizes
import FlowDb.PollingLoop
import FlowDb.BackgroundMaintenance
import FlowDb.Restarts
import FlowDb.AppendOnly
import FlowDb.CrashedMaintenance
import FlowDb.MemorySessions
import FlowDb.ReopenedDocuments
import FlowDb.TableUpkeep
import FlowDb.LogFiles
import FlowDb.AppliedSchemas
