import Mainnet.Archive.Reading
import Mainnet.Archive.Restore
import Mainnet.Blockchain.ChainShape
import Mainnet.Blockchain.KeyValueMaps
import Mainnet.Blockchain.WorkerSlots
import Mainnet.BuildRoot.Fast
import Mainnet.Consensus.BuildBlock
import Mainnet.Consensus.HeaderTime
import Mainnet.Consensus.Proposer
import Mainnet.Crypto.SignTx
import Mainnet.Evm.Bitwise
import Mainnet.Evm.EmptyRanges
import Mainnet.Evm.JumpTargets
import Mainnet.Evm.MemoryGas
import Mainnet.Evm.StackWords
import Mainnet.Evm.StaticFrames
import Mainnet.Evm.Underflow
import Mainnet.Executor.ParallelBlock
import Mainnet.Executor.TokenConflicts
import Mainnet.Fork.Switch
import Mainnet.Itrie.EpochWrap
import Mainnet.Itrie.Rehash
import Mainnet.Jsonrpc.BlockFilters
import Mainnet.Jsonrpc.EstimateGas
import Mainnet.Jsonrpc.LogRange
import Mainnet.Jsonrpc.Timeouts
import Mainnet.Parallel.Interleaving
import Mainnet.Rewards.Distribution
import Mainnet.Server.Lossless
import Mainnet.Signer.ExtraRoundTrip
import Mainnet.Signer.SealingSlices
import Mainnet.State.Isolation
import Mainnet.Syncer.Close
import Mainnet.Syncer.Sync
import Mainnet.Tracer.StorageTrace
import Mainnet.Txpool.Account
import Mainnet.Txpool.EventManager
import Mainnet.Txpool.History
import Mainnet.Txpool.PricedQueue
import Mainnet.Txpool.QueueLock
import Mainnet.Types.Bloom
import Mainnet.Types.TransactionHash
import Mainnet.Validators.Atomic
import Mainnet.Validators.Candidates
import Mainnet.Validators.PutByNumber
import Mainnet.Validators.SnapshotJson
import Mainnet.Validators.VoteSeals
