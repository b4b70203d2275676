import Beancash.WriteBatch
import Beancash.WordNumber
import Beancash.WordArithmetic
import Beancash.WordShift
import Beancash.CompactNumber
import Beancash.CandidateScan
import Beancash.FallibleStep
import Beancash.SpentLedger
import Beancash.LedgerTotals
import Beancash.Transaction
import Beancash.Block
import Beancash.TxDB
import Beancash.BlockIndex
import Beancash.Retarget
import Beancash.TargetBound
import Beancash.StakeModifier
import Beancash.Inputs
import Beancash.InputSpec
import Beancash.MemPool
import Beancash.PoolInvariant
import Beancash.Wallet
import Beancash.WalletNotices
import Beancash.ConnectBlock
import Beancash.Kernel
import Beancash.BlockLedger
import Beancash.MemorySentinel
import Beancash.ConnectSpec
import Beancash.BestChain
import Beancash.FailedSwitch
import Beancash.FailedWallets
import Beancash.BlockTree
import Beancash.BranchSwitch
import Beancash.Consistency
import Beancash.KernelReads
import Beancash.ChainRun
import Beancash.Supply
import Beancash.PoolConflicts
import Beancash.PoolRun
import Beancash.PoolSweep
import Beancash.PoolRoots
import Beancash.BeanStake
import Beancash.StakeAccepted
import Beancash.BlockTemplate
import Beancash.TemplateQueue
import Beancash.TemplateSpec
import Beancash.SignBlock
import Beancash.IndexedNode
import Beancash.SyncCheckpoint
import Beancash.AcceptBlock
import Beancash.TreeGrowth
import Beancash.CheckpointSpec
import Beancash.CheckpointRun
import Beancash.LoadBlockIndex
import Beancash.IndexRecords
import Beancash.DurableIndex
import Beancash.ReloadMap
import Beancash.ChainVerify
import Beancash.ReloadSpec
import Beancash.ReloadRun
import Beancash.MerkleTree
import Beancash.MerkleRoot
import Beancash.ByteStream
import Beancash.Serialize
import Beancash.SerializeSpec
import Beancash.BlockFile
import Beancash.Script
import Beancash.SignatureHash
import Beancash.StackMachine
import Beancash.CheckSig
import Beancash.EvalScript
import Beancash.EvalSafe
import Beancash.Solver
import Beancash.OrphanTx
import Beancash.OrphanSync
import Beancash.WalletScan
import Beancash.Reaccept
import Beancash.ScanNews
import Beancash.ReacceptSpec
import Beancash.SpentBeans
import Beancash.NetMessage
import Beancash.SendQueue
import Beancash.ReceiveQueue
import Beancash.MessageDelivery
import Beancash.Alert
import Beancash.BlockTimes
import Beancash.ImportWallet
import Beancash.LoadWallet
import Beancash.WalletBirthday
import Beancash.ReorderTransactions
import Beancash.ReorderSpec
import Beancash.KeyPool
import Beancash.KeyPoolRun
import Beancash.ScriptRun
import Beancash.TemplateScripts
import Beancash.TemplateRuns
import Beancash.SignSignature
import Beancash.SpendMine
import Beancash.HeightPrefix
import Beancash.Locator
import Beancash.SelectBeans
import Beancash.SelectBeansSpec
import Beancash.Knapsack
import Beancash.SelectByBeanAge
import Beancash.BeanAgeBundles
import Beancash.BeanAgeProgram
import Beancash.BeanAgeSpec
import Beancash.BeanAgeCost
import Beancash.CryptoKeyStore
import Beancash.KeyStoreRun
import Beancash.ChangePassphrase
import Beancash.OrphanIndex
import Beancash.CachedAmounts
import Beancash.AmountRun
import Beancash.ProcessBlock
import Beancash.OrphanBlocks
import Beancash.StakeVerdict
import Beancash.BlockTrust
import Beancash.CanonicalSignature
import Beancash.KernelModifier
import Beancash.BlockByHeight
import Beancash.SolverSpec
import Beancash.Destinations
import Beancash.CombineSignatures
import Beancash.SignRawTransaction
import Beancash.SigOpCount
import Beancash.SigOpLimit
import Beancash.BlockValues
import Beancash.MinFee
import Beancash.PushOnly
import Beancash.MultisigRuns
import Beancash.MergeSignatures
import Beancash.RadixString
import Beancash.ByteText
import Beancash.BaseUint
import Beancash.SortedMap
import Beancash.Base58
import Beancash.WalletTxRecord
import Beancash.AccountingRecord
import Beancash.PubKey
import Beancash.TorsionGroup
import Beancash.KeyRecovery
import Beancash.CompactSignature
import Beancash.ReportedAmounts
import Beancash.AccountWallet
import Beancash.CreateTransaction
import Beancash.CreateTransactionSpec
import Beancash.AccountBalances
import Beancash.ListTransactions
import Beancash.TrustedBalance
import Beancash.WorkQueue
import Beancash.SupportingTransactions
import Beancash.SetMerging
import Beancash.AddressGroupings
import Beancash.MruSet
import Beancash.LimitedMap
import Beancash.SelectTried
import Beancash.MedianFilter
import Beancash.TimeOffset
import Beancash.LockedPages
import Beancash.MoneyText
import Beancash.HostPort
import Beancash.WildcardMatch
import Beancash.DigitRegrouping
import Beancash.Base64
import Beancash.ScriptPushes
import Beancash.BigNumber
import Beancash.CanonicalPushes
import Beancash.FindAndDelete
import Beancash.RewindQueue
import Beancash.DataStream
import Beancash.DumpText
import Beancash.DumpWallet
import Beancash.DumpRoundTrip
import Beancash.AddrMan
import Beancash.PositionIndex
import Beancash.BucketTable
import Beancash.AddrManIndex
import Beancash.AddrManBuckets
import Beancash.AddrManRuns
import Beancash.AddrManFile
import Beancash.AddrManReload
import Beancash.AddrManSessions
import Beancash.AddrManChecked
import Beancash.SignatureCache
import Beancash.ShiftRegister
import Beancash.Crc32c
import Beancash.LevelCoding
import Beancash.VersionedStore
import Beancash.LevelLog
import Beancash.LevelBatch
import Beancash.LevelMemTable
import Beancash.LevelWriters
