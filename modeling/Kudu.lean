import Kudu.Framework.Lex
import Kudu.Framework.Transition
import Kudu.Framework.Quorum
import Kudu.Framework.Assign
import Kudu.Framework.Prefix
import Kudu.Common.Types
import Kudu.Common.KeyEncoder
import Kudu.Common.Schema
import Kudu.Framework.Carry
import Kudu.Common.KeyUtil
import Kudu.Tablet.Mvcc
import Kudu.Tablet.MvccInvariant
import Kudu.Consensus.QuorumUtil
import Kudu.Consensus.LeaderElection
import Kudu.Consensus.RaftConsensus
import Kudu.Consensus.Votes
import Kudu.Consensus.Cluster
import Kudu.Consensus.ElectionSafety
import Kudu.Consensus.PendingRounds
import Kudu.Framework.OrderStatistic
import Kudu.Consensus.ConsensusQueue
import Kudu.Consensus.TimeManager
import Kudu.Common.RowChangeList
import Kudu.Tablet.Compaction
import Kudu.Tablet.CompactionHistory
import Kudu.Tablet.DeltaStore
import Kudu.Tablet.DeltaApply
import Kudu.Tablet.SnapshotRead
import Kudu.Framework.Tuples
import Kudu.Util.HashUtil
import Kudu.Common.Partition
import Kudu.Framework.Result
import Kudu.Common.PartitionCreate
import Kudu.Common.PartitionSplit
import Kudu.Common.PartitionPruner
import Kudu.Framework.Pairs
import Kudu.Framework.PriorityQueue
import Kudu.Util.IntervalTree
import Kudu.Tablet.RowSetTree
import Kudu.Consensus.ReplicaEviction
import Kudu.Tablet.DeltaSelect
import Kudu.Tablet.SelectPrepare
import Kudu.Tablet.DiffScan
import Kudu.Framework.Bytes
import Kudu.Framework.Prog
import Kudu.Common.WriteSchema
import Kudu.Common.RowOperations
import Kudu.Common.RowOperationsSafety
import Kudu.Common.RowOperationsRoundTrip
import Kudu.Framework.Knapsack
import Kudu.Util.KnapsackSolver
import Kudu.Framework.Varint
import Kudu.Util.Coding
import Kudu.Cfile.BinaryPrefixBlock
import Kudu.Cfile.BinaryPlainBlock
import Kudu.Cfile.PrefixBlockLayout
import Kudu.Cfile.PrefixBlockDecode
import Kudu.Cfile.PrefixBlockSeek
import Kudu.Cfile.PrefixBlockRoundTrip
import Kudu.Cfile.StringBlockHeader
import Kudu.Cfile.PlainBlockLayout
import Kudu.Cfile.PlainBlockRoundTrip
import Kudu.Transactions.TxnStatusManager
import Kudu.Transactions.StaleTxnAbort
import Kudu.Util.BloomFilter
