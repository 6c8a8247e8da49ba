import CampNode.Core.Transition
import CampNode.Core.Sort
import CampNode.Core.Greedy
import CampNode.Segments.Basic
import CampNode.Segments.Chains
import CampNode.Segments.Reachability
import CampNode.Segments.Reclaim
import CampNode.Compaction.History
import CampNode.Compaction.Plan
import CampNode.Compaction.Table
import CampNode.Compaction.Collector
import CampNode.Incremental.Plan
import CampNode.Incremental.Law
import CampNode.Core.HashChain
import CampNode.Streaming.Blocks
import CampNode.Streaming.Query
import CampNode.Streaming.Stream
import CampNode.Client.Actor
import CampNode.Client.Bookkeeping
import CampNode.Client.Ordered
import CampNode.Client.Replay
import CampNode.Client.Cdc
import CampNode.Client.Deletes
import CampNode.Worker.Jobs
import CampNode.Worker.Service
import CampNode.Worker.Races
import CampNode.Worker.Stopping
import CampNode.Worker.Datasets
import CampNode.Segments.Ranges
import CampNode.Segments.Missing
import CampNode.Dump.Partition
import CampNode.Core.Route
import CampNode.Dump.Writer
import CampNode.Dump.Dataset
import CampNode.Dump.EndBlock
import CampNode.Core.Radix
import CampNode.Postgres.Numeric
import CampNode.Postgres.Decimal
import CampNode.Evm.Rows
import CampNode.Ampsync.Engine
import CampNode.Ampsync.Task
import CampNode.Ampsync.Recovery
import CampNode.Solana.Extractor
import CampNode.Solana.Archive
import CampNode.Datasets.Tags
import CampNode.Client.Typescript
import CampNode.Datasets.Manifests
import CampNode.Datasets.Revisions
import CampNode.Streaming.Termination
import CampNode.Streaming.Session
import CampNode.Evm.Arrow
import CampNode.Evm.Cells
import CampNode.Evm.Append
import CampNode.Evm.DecodeLog
import CampNode.Server.CommonRange
import CampNode.Segments.Selection
import CampNode.Streaming.BlockComplete
import CampNode.Streaming.ReorgBase
import CampNode.Client.Retention
import CampNode.Client.Undo
import CampNode.Dump.Rotation
import CampNode.Worker.Retries
import CampNode.Compaction.Groups
import CampNode.Client.Commits
import CampNode.Client.Confluence
import CampNode.Incremental.OneRow
import CampNode.Core.OrderedMap
import CampNode.Client.BatchStores
import CampNode.Client.Stores
import CampNode.Client.Once
import CampNode.Streaming.StartBlock
import CampNode.Dump.BlocksTable
import CampNode.Dump.Check
import CampNode.Core.Resume
import CampNode.Extractors.Retry
import CampNode.Server.EarliestBlock
import CampNode.Server.Flight
import CampNode.Firehose.PbToRows
import CampNode.Core.Chunks
import CampNode.Evm.Batches
import CampNode.Evm.Receipts
import CampNode.Firehose.Client
import CampNode.Core.BinarySearch
import CampNode.Pinax.Files
import CampNode.Client.Held
import CampNode.Streaming.Wakeups
import CampNode.Worker.Attempts
import CampNode.Server.MemoryPool
import CampNode.Compaction.BlockCount
import CampNode.Server.Auth
import CampNode.Js.IsolatePool
