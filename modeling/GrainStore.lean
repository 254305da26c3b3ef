import GrainStore.Foundation.FixedWidth
import GrainStore.Foundation.OrderedMap
import GrainStore.Foundation.FrameScan
import GrainStore.Usize
import GrainStore.Model
import GrainStore.Keys
import GrainStore.Cdc
import GrainStore.Hlc
import GrainStore.Kv
import GrainStore.Wal.Codec
import GrainStore.Wal.Committer
import GrainStore.Log
import GrainStore.Recovery
import GrainStore.Truth
import GrainStore.Truth.Visibility
import GrainStore.Wal.GroupCommit
import GrainStore.Recovery.Represents
import GrainStore.Recovery.Truncation
import GrainStore.Foundation.Trace
import GrainStore.Wal.Machine
import GrainStore.Wal.Invariant
import GrainStore.Wal.Acks
import GrainStore.Truth.Snapshot
import GrainStore.Recovery.Sessions
import GrainStore.Materializer
import GrainStore.Materializer.Pool
import GrainStore.Engine.Sync
import GrainStore.Planner
import GrainStore.Query
import GrainStore.Engine
import GrainStore.Governance
import GrainStore.Governance.Budget
import GrainStore.Engine.History
import GrainStore.Governance.Isolation
import GrainStore.Engine.Commit
import GrainStore.Engine.LogStore
import GrainStore.Engine.Batches
import GrainStore.Engine.Writes
import GrainStore.Foundation.Ranking
import GrainStore.Query.Predicates
import GrainStore.Truth.Scan
import GrainStore.Engine.Rebuild
import GrainStore.Governance.Masking
import GrainStore.Governance.DeniedWrites
import GrainStore.Governance.WriteProtection
import GrainStore.Wal.Durability
import GrainStore.Disclosure
import GrainStore.Recovery.Openers
import GrainStore.Server
import GrainStore.Server.Load
import GrainStore.Foundation.Worklist
import GrainStore.Vector.Hnsw
import GrainStore.Vector.Beam
import GrainStore.Vector.Links
import GrainStore.Vector.Recall
import GrainStore.Vector.Soundness
import GrainStore.Vector.SoftDeletes
import GrainStore.Vector.WellFormed
import GrainStore.Vector.Bounds
import GrainStore.Vector.Sharded
import GrainStore.Foundation.Crc
import GrainStore.Truth.Agreement
import GrainStore.Wal.Canonical
import GrainStore.Wal.Corruption
import GrainStore.Wal.Limits
import GrainStore.Block
import GrainStore.Block.Partition
import GrainStore.Block.Lookups
import GrainStore.Block.Pruning
import GrainStore.Foundation.Tickets
import GrainStore.Governance.Precedence
import GrainStore.Governance.Audit
import GrainStore.Foundation.CompareExchange
import GrainStore.Hlc.Concurrent
import GrainStore.Disclosure.Concurrent
import GrainStore.Disclosure.Summaries
import GrainStore.Block.Totality
import GrainStore.Foundation.Json
import GrainStore.Server.Daemon
import GrainStore.Server.Numbers
import GrainStore.Server.Capacity
import GrainStore.Engine.Selectivity
import GrainStore.Keys.Versions
import GrainStore.Recovery.Replay
import GrainStore.Vector.Layer
import GrainStore.Foundation.Lcg
import GrainStore.Vector.Split
import GrainStore.Vector.Levels
import GrainStore.Server.Http
import GrainStore.Server.Service
import GrainStore.Server.Handle
import GrainStore.Server.Invariant
import GrainStore.Server.Answers
import GrainStore.Server.Loads
import GrainStore.Server.Linear
import GrainStore.Server.Mcp
import GrainStore.Wal.Feed
import GrainStore.Materializer.Shutdown
import GrainStore.Foundation.Rounding
import GrainStore.Planner.Margin
import GrainStore.Query.Planned
import GrainStore.Governance.Noninterference
import GrainStore.Governance.Concurrent
