import Dolos.Cardano.WorkRestart
import Dolos.Cardano.LogicRun
import Dolos.Cardano.Pots
import Dolos.Cardano.Recovery
import Dolos.Cardano.Indexes
import Dolos.Cardano.RewardsBound
import Dolos.Cardano.RupdShards
import Dolos.Cardano.WorkRupd
import Dolos.Cardano.WalChain
import Dolos.Cardano.ForestRun
import Dolos.Core.MempoolDepth
import Dolos.Core.MempoolAgree
import Dolos.Core.MempoolPages
import Dolos.Core.CrawlGapless
import Dolos.Cardano.MempoolUtxos
import Dolos.Core.FjallIndexes
import Dolos.Core.IndexUndo
import Dolos.Cardano.UtxoStores
import Dolos.Cardano.InvalidTx
import Dolos.Cardano.CatchUpIndexes
import Dolos.Cardano.DatumRefs
import Dolos.Cardano.Consensus
import Dolos.Core.ArchiveCrash
import Dolos.Cardano.RollbackTarget
import Dolos.Cardano.EpochLogs
import Dolos.Snapshot.ExportLaw
import Dolos.Snapshot.Resume
import Dolos.Snapshot.Incremental
import Dolos.Core.BlockIter
import Dolos.Cardano.DrepExpiry
import Dolos.Cardano.SubmissionOrder
import Dolos.Cardano.MirQueue
import Dolos.Cardano.CreditLaw
import Dolos.Cardano.EraArithmetic
import Dolos.Cardano.EpochSnapshots
import Dolos.Cardano.ShardBytes
import Dolos.Core.PointLaw
import Dolos.Core.WalPruning
import Dolos.Cardano.NonceWindow
import Dolos.Cardano.GovDistrLaw
import Dolos.Cardano.GovWords
import Dolos.Cardano.BoundaryRestart
import Dolos.Cardano.BatchReads
import Dolos.Snapshot.LayerRecords
import Dolos.Snapshot.Selection
import Dolos.Snapshot.SelectionLaw
import Dolos.Snapshot.Exported
import Dolos.Snapshot.RestoreExport
import Dolos.Snapshot.ExportSucceeds
import Dolos.Cardano.BatchStores
import Dolos.Snapshot.ChainNode
import Dolos.Snapshot.ChainRestore
import Dolos.Sync.Submit
import Dolos.Sync.SubmitStores
import Dolos.Sync.SubmitRun
import Dolos.Cardano.ShardCount
import Dolos.Cardano.BoundaryUnits
import Dolos.Cardano.BoundaryCounts
import Dolos.Cardano.BoundaryCuts
import Dolos.Cardano.CrashRun
