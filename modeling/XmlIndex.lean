import XmlIndex.Database
import XmlIndex.Json.Forms
import XmlIndex.Index.Audit
import XmlIndex.Index.Drop
import XmlIndex.Index.Join
import XmlIndex.Index.Update
import XmlIndex.NodeId.Text
import XmlIndex.Proofs.ActionSteps
import XmlIndex.Proofs.BlockFraming
import XmlIndex.Proofs.BlockRoundTrip
import XmlIndex.Proofs.CursorPosition
import XmlIndex.Proofs.DocumentOrder
import XmlIndex.Proofs.EntryArranging
import XmlIndex.Proofs.MapLaws
import XmlIndex.Proofs.SweepPairs
import XmlIndex.Proofs.SweepNestedLoop
import XmlIndex.Proofs.NodeSetMerge
import XmlIndex.Proofs.KeyFormation
import XmlIndex.Proofs.QueryVisits
import XmlIndex.Proofs.JoinBruteForce
import XmlIndex.Proofs.FlushSteps
import XmlIndex.Proofs.FlushResume
import XmlIndex.Proofs.BlockRewriting
import XmlIndex.Proofs.RemovalSteps
import XmlIndex.Proofs.DropSteps
import XmlIndex.Proofs.IndexRuns
import XmlIndex.Proofs.StoredValues
import XmlIndex.Proofs.PlainMap
import XmlIndex.Proofs.IndexContents
import XmlIndex.Proofs.MapRefinement
import XmlIndex.Proofs.OpenCalls
import XmlIndex.Proofs.SymbolRoom
import XmlIndex.Proofs.FirstLoad
import XmlIndex.Proofs.RecordReading
import XmlIndex.Proofs.CacheConsistency
import XmlIndex.Proofs.CacheVictims
import XmlIndex.Proofs.CacheSteps
import XmlIndex.Proofs.CacheMoves
import XmlIndex.Proofs.CacheRuns
import XmlIndex.Proofs.CacheStays
import XmlIndex.Proofs.CacheAdmission
import XmlIndex.Proofs.RecordedHooks
import XmlIndex.Proofs.CleanEvictions
import XmlIndex.Proofs.CatalogSteps
import XmlIndex.Proofs.CatalogAgreement
import XmlIndex.Proofs.CatalogMoves
import XmlIndex.Proofs.CatalogCalls
import XmlIndex.Proofs.CatalogRuns
import XmlIndex.Proofs.CatalogValues
import XmlIndex.Proofs.CatalogHistories
import XmlIndex.Proofs.CatalogNewcomers
import XmlIndex.Proofs.FailedCreation
import XmlIndex.Proofs.FailedRemoval
import XmlIndex.Proofs.HandedOut
import XmlIndex.Proofs.StoreChanges
import XmlIndex.Proofs.StoreAddresses
import XmlIndex.Proofs.StoreRuns
import XmlIndex.Proofs.WireReading
import XmlIndex.Proofs.SnapshotRoundTrip
import XmlIndex.Proofs.ChecksumChanges
import XmlIndex.Proofs.SnapshotDamage
import XmlIndex.Proofs.UntrustedSnapshots
import XmlIndex.Proofs.ActionAgreement
import XmlIndex.Proofs.QueryIsolation
import XmlIndex.Proofs.ValuesByName
import XmlIndex.Proofs.CensusCounts
import XmlIndex.Proofs.SymbolCoverage
import XmlIndex.Proofs.StoreAccess
import XmlIndex.Proofs.AlikeIndexes
import XmlIndex.Proofs.DocumentParts
import XmlIndex.Proofs.AlikeReports
import XmlIndex.Proofs.AnsweredDocuments
import XmlIndex.Proofs.SelectedNodes
import XmlIndex.Proofs.BlockEdits
import XmlIndex.Proofs.StatisticsAgree
import XmlIndex.Proofs.AuditVerdicts
import XmlIndex.Proofs.UpdateEffects
import XmlIndex.Proofs.UpdatesCommute
import XmlIndex.Proofs.ReachedIndexes
import XmlIndex.Proofs.UpdatesAlike
import XmlIndex.Proofs.DropsAlike
import XmlIndex.Proofs.RequestCalls
import XmlIndex.Proofs.LaterUpdates
import XmlIndex.Proofs.DropWalks
import XmlIndex.Proofs.RemovalEffect
import XmlIndex.Proofs.InterruptedDrops
import XmlIndex.Proofs.WrittenBlocks
import XmlIndex.Proofs.LazySweeps
import XmlIndex.Proofs.DamagedJoins
import XmlIndex.Proofs.BudgetLimits
import XmlIndex.Proofs.CacheGrowth
import XmlIndex.Proofs.VictimChoice
import XmlIndex.Proofs.GrantedGrowth
import XmlIndex.Proofs.JoinedPairs
import XmlIndex.Proofs.SweepProgress
import XmlIndex.Proofs.CursorIndices
import XmlIndex.Proofs.RemovalResume
import XmlIndex.Proofs.NodeSetHistories
import XmlIndex.Proofs.KeyOrder
import XmlIndex.Proofs.RangeScans
import XmlIndex.Proofs.KeyScopes
import XmlIndex.Proofs.MovedInput
import XmlIndex.Proofs.BlockPartition
import XmlIndex.Proofs.CutInput
import XmlIndex.Proofs.CutValues
import XmlIndex.Proofs.VarintValues
import XmlIndex.Proofs.SymbolAnswers
import XmlIndex.Proofs.NodeIdText
import XmlIndex.Proofs.ProgressReports
import XmlIndex.Proofs.SubtreeIntervals
import XmlIndex.Proofs.NodeIdStreams
