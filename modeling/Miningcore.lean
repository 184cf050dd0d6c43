import Miningcore.Foundation.Dictionary
import Miningcore.Foundation.EarlyExit
import Miningcore.Foundation.DescendingSort
import Miningcore.Foundation.KeysetPaging
import Miningcore.Foundation.CappedSum
import Miningcore.Persistence.Repositories
import Miningcore.Payments.PaymentSchemes.WindowCalculation
import Miningcore.Payments.PaymentSchemes.BalanceUpdate
import Miningcore.Payments.PaymentSchemes.PPLNS
import Miningcore.Payments.PayoutManager
import Miningcore.Payments.Interruption
import Miningcore.Payments.PaymentSchemes.PROP
import Miningcore.Payments.PaymentSchemes.PROPRewards
import Miningcore.Payments.RewardConservation
import Miningcore.Payments.PagedReading
import Miningcore.Payments.PayoutCycles
import Miningcore.Payments.SettlementOrder
import Miningcore.Payments.PROPRounds
import Miningcore.Foundation.DecimalRounding
import Miningcore.Payments.PaymentPersistence
import Miningcore.Payments.Transfers
import Miningcore.Blockchain.Bitcoin.BitcoinPayoutHandler
import Miningcore.Blockchain.Ergo.ErgoPayoutHandler
import Miningcore.Payments.PaymentAmounts
import Miningcore.Blockchain.Equihash.EquihashPayoutHandler
import Miningcore.Blockchain.Kaspa.KaspaPayoutHandler
import Miningcore.Blockchain.Pearl.PearlPayoutHandler
import Miningcore.Blockchain.Warthog.WarthogPayoutHandler
import Miningcore.Blockchain.Equihash.OperationTracking
import Miningcore.Payments.TransfersInFlight
import Miningcore.Blockchain.Cryptonote.CryptonotePayoutHandler
import Miningcore.Payments.SettledTransfers
import Miningcore.Blockchain.Cryptonote.TransferSettlement
import Miningcore.Payments.DoublePayments
import Miningcore.Persistence.Ledger
import Miningcore.Crypto.MerkleTree
import Miningcore.Foundation.LineSplitting
import Miningcore.Stratum.StratumConnection
import Miningcore.Stratum.LineFraming
import Miningcore.Extensions.HexParsing
import Miningcore.Blockchain.Kaspa.KaspaJob
import Miningcore.Blockchain.Kaspa.KaspaJobManager
import Miningcore.Blockchain.Ethereum.EthereumJob
import Miningcore.Blockchain.Bitcoin.BitcoinJob
import Miningcore.Blockchain.Bitcoin.DuplicateWork
import Miningcore.Blockchain.Bitcoin.CoinbaseConservation
import Miningcore.Blockchain.Bitcoin.BitcoinJobManager
import Miningcore.Blockchain.Bitcoin.StealthJobs
import Miningcore.Blockchain.Kaspa.DuplicateRows
import Miningcore.Blockchain.Kaspa.RewardOutputs
import Miningcore.Blockchain.Kaspa.DoubleCredits
import Miningcore.Foundation.JsonDocument
import Miningcore.JsonRpc.JsonRpcRequest
import Miningcore.Stratum.FastRequestParser
import Miningcore.Foundation.OverwritingLoop
import Miningcore.Stratum.RequestRefinement
import Miningcore.Banning.IntegratedBanManager
import Miningcore.Stratum.ProxyGate
import Miningcore.Banning.BanEscalation
import Miningcore.Foundation.FloatingPoint
import Miningcore.VarDiff.VarDiffManager
import Miningcore.Blockchain.Bitcoin.BitcoinPool
import Miningcore.Blockchain.Bitcoin.ExtraNonceUniqueness
import Miningcore.Foundation.FaultPolicies
import Miningcore.Mining.ShareRecorder
import Miningcore.Blockchain.Kaspa.KaspaBech32
import Miningcore.Foundation.BitGroups
import Miningcore.Foundation.ChecksumRegister
import Miningcore.Blockchain.Kaspa.AddressDecoding
import Miningcore.Blockchain.Kaspa.AddressCanonicity
import Miningcore.Payments.NodeOutages
import Miningcore.Blockchain.Alephium.BlockClassification
import Miningcore.Blockchain.NodeOutages
import Miningcore.Blockchain.Ethereum.BlockClassification
import Miningcore.Blockchain.Ethereum.ConfirmedRows
import Miningcore.Blockchain.Beam.BeamJobManager
import Miningcore.Blockchain.Beam.BlockClassification
import Miningcore.Blockchain.Progpow.ProgpowJob
import Miningcore.Foundation.ThresholdSum
import Miningcore.Mining.RetargetCredit
import Miningcore.Blockchain.Progpow.DuplicateNonces
import Miningcore.Blockchain.Zano.ZanoJob
import Miningcore.Blockchain.Pearl.PearlJobManager
import Miningcore.Blockchain.Ergo.DuplicateNonces
import Miningcore.Blockchain.Alephium.AlephiumJob
import Miningcore.Blockchain.Xelis.XelisJob
import Miningcore.Blockchain.ExactRegistries
import Miningcore.Blockchain.Equihash.VeruscoinJob
import Miningcore.Blockchain.Equihash.DuplicateSolutions
import Miningcore.Blockchain.Cryptonote.CryptonoteJob
import Miningcore.Blockchain.Cryptonote.CryptonotePool
import Miningcore.Blockchain.Cryptonote.DuplicateNonces
import Miningcore.Blockchain.Progpow.FiroJob
import Miningcore.Blockchain.Cryptonote.LowDifficulty
import Miningcore.Blockchain.Ethereum.OwnUncles
import Miningcore.Blockchain.Equihash.CoinbaseIsolation
import Miningcore.Blockchain.Beam.BlockSubmission
import Miningcore.Blockchain.Xelis.SubmittedHeaders
import Miningcore.Blockchain.Beam.JobStream
import Miningcore.Blockchain.Alephium.JobStream
import Miningcore.Blockchain.DaemonStreams
import Miningcore.Blockchain.Pearl.ShareTargets
import Miningcore.Configuration.ClusterConfig
import Miningcore.Configuration.ConfigHotReloadService
import Miningcore.Configuration.LivePools
import Miningcore.Configuration.RestartedPools
import Miningcore.Configuration.ReloadEvents
import Miningcore.Foundation.DictionaryUpdates
import Miningcore.Foundation.GuardedRuns
import Miningcore.Configuration.PaidPools
import Miningcore.Api.AdminGate
import Miningcore.Api.LoginLockout
import Miningcore.Payments.FinderShares
import Miningcore.Payments.OverflowGuard
import Miningcore.Blockchain.Ethereum.UncleRewards
import Miningcore.Blockchain.Xelis.BlockClassification
import Miningcore.Blockchain.BlockMaturity
import Miningcore.Blockchain.Kaspa.CreditedWork
import Miningcore.Blockchain.Kaspa.NonceAssembly
import Miningcore.Blockchain.Bitcoin.TransactionFormat
import Miningcore.Blockchain.Bitcoin.AssembledCoinbases
import Miningcore.Blockchain.Bitcoin.ShareCredits
import Miningcore.Blockchain.Handshake.HandshakeMerkleTree
import Miningcore.Blockchain.Handshake.HandshakeJob
import Miningcore.Blockchain.Handshake.HeaderIsolation
import Miningcore.Blockchain.Handshake.HandshakeBech32Decoder
import Miningcore.Blockchain.Handshake.AddressEncoding
import Miningcore.Blockchain.Handshake.DecodedPrograms
import Miningcore.VarDiff.DifficultyBounds
import Miningcore.Banning.ConnectionThrottle
import Miningcore.Stratum.ObjectTrimming
import Miningcore.JsonRpc.FastConversion
import Miningcore.Blockchain.Equihash.CoinbaseValue
import Miningcore.Blockchain.Equihash.BlockSerialization
import Miningcore.VarDiff.IdleUpdates
import Miningcore.Mining.BlockNotifications
import Miningcore.Mining.ShareRecovery
import Miningcore.Mining.StatsRecorder
import Miningcore.Blockchain.Cryptonote.EncodedTarget
import Miningcore.Blockchain.Alephium.AlephiumPayoutHandler
import Miningcore.Blockchain.FeeDeductions
import Miningcore.Blockchain.Warthog.WarthogCustomFloat
import Miningcore.Blockchain.Warthog.FloatOrder
import Miningcore.Blockchain.Beam.BeamUtils
import Miningcore.Blockchain.Zano.EncodedTarget
import Miningcore.Blockchain.Xelis.BlockTemplates
import Miningcore.Blockchain.Progpow.ProgpowUtils
import Miningcore.Blockchain.Ergo.ChainVerdicts
import Miningcore.Blockchain.Pearl.UnpaidBlocks
import Miningcore.Blockchain.Kaspa.CompactTargets
import Miningcore.Blockchain.Equihash.RewardAddresses
import Miningcore.Persistence.PartitionManager
import Miningcore.Blockchain.Ethereum.CortexCuckooCycle
import Miningcore.Crypto.EquihashSolutions
import Miningcore.Crypto.BeamHash
import Miningcore.Crypto.LightCaches
import Miningcore.Blockchain.Cryptonote.AddressDecoding
import Miningcore.Blockchain.Cryptonote.TreeHash
import Miningcore.Blockchain.Cryptonote.HashingBlob
import Miningcore.Blockchain.Bitcoin.BlockAssembly
