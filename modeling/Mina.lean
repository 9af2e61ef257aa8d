import Mina.NetworkPool.Revalidate
import Mina.ParallelScan.Stranded
import Mina.ParallelScan.Restored
import Mina.ParallelScan.CoveredRuns
import Mina.Consensus.MinWindowDensity
import Mina.Consensus.EpochSnapshots
import Mina.Frontier.ProtocolStates
import Mina.PendingCoinbase.Fifo
import Mina.PendingCoinbase.HashExtraFacts
import Mina.SyncableLedger.HonestRun
import Mina.SyncableLedger.NumAccounts
import Mina.StagedLedger.CheckedCoinbase
import Mina.CacheLib.Cache
import Mina.CacheLib.CacheFacts
import Mina.CacheLib.CacheRuns
import Mina.TransitionHandler.CatchupForest
import Mina.TransitionHandler.Processor
import Mina.TransitionHandler.ProcessorFacts
import Mina.TransitionHandler.ProcessorSettles
import Mina.VrfEvaluator.VrfEvaluatorRuns
import Mina.Frontier.CatchupJobs
import Mina.Frontier.BestChain
import Mina.Frontier.RefcountRuns
import Mina.Downloader.DownloaderRuns
import Mina.NetworkPool.Replacement
import Mina.NetworkPool.BatcherAnswers
import Mina.Bitswap.BlockTree
import Mina.Bitswap.ConsistentRuns
import Mina.Base.FeeExcessFacts
import Mina.Base.FeeExcessChecked
import Mina.Account.Timing
import Mina.Account.ApplyBody
import Mina.SparseLedger.Faithful
import Mina.Base.FeeMap
import Mina.Base.CurrencyFormat
import Mina.Base.CurrencyChecked
import Mina.StagedLedger.CoinbaseWork
import Mina.StagedLedger.Resources
import Mina.StagedLedger.ResourcesFacts
import Mina.StagedLedger.ConstraintLoop
import Mina.StagedLedger.ResourceAccounts
import Mina.StagedLedger.PreDiffInfo
import Mina.StagedLedger.PreDiffData
import Mina.StagedLedger.OnePrediff
import Mina.StagedLedger.Generate
import Mina.Base.Preference
import Mina.Consensus.ChainSelection
import Mina.Base.Int64
import Mina.Consensus.ConsensusTime
import Mina.Consensus.TimeWindow
import Mina.Consensus.Bootstrap
import Mina.Consensus.LocalStateSync
import Mina.Consensus.SlotDiff
import Mina.Bitswap.DeleteRoot
import Mina.Merkle.AddressRange
import Mina.Frontier.CatchupTipsFacts
import Mina.LedgerCatchup.DownloadRuns
import Mina.Frontier.RootHistoryFacts
import Mina.Frontier.ChainProofs
import Mina.NetworkPool.SnarkPoolRuns
import Mina.NetworkPool.RateLimiterRuns
import Mina.RandomOracleInput.CodingRoundTrip
import Mina.RandomOracleInput.Packing
import Mina.Rosetta.Safety
import Mina.Rosetta.Transaction
import Mina.Rosetta.TransactionRoundTrip
import Mina.TransactionLogic.Conservation
import Mina.TransactionLogic.History
import Mina.TransactionLogic.Accessed
import Mina.StagedLedger.Statements
