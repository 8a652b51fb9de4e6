import Mq.Lib.Word
import Mq.Lib.Search
import Mq.Lib.Transition
import Mq.Lib.Decimal
import Mq.Lib.Table
import Mq.Lib.Files
import Mq.Lib.Growth
import Mq.Lib.Json
import Mq.Lib.Retention
import Mq.Lib.Framing
import Mq.Lib.Strip
import Mq.Lib.Quote
import Mq.Record.Batch
import Mq.Record.Walk
import Mq.Wire.Kbytes
import Mq.Wire.Fields
import Mq.Wire.ApiKeys
import Mq.Wire.Fetch
import Mq.Wire.Requests
import Mq.Wire.Responses
import Mq.Storage.Segment
import Mq.Storage.Log
import Mq.Storage.Part
import Mq.Storage.ReadPath
import Mq.Storage.Layout
import Mq.Storage.Refinement
import Mq.Storage.History
import Mq.Storage.Mutation
import Mq.Storage.Growth
import Mq.Storage.AppendOnly
import Mq.Storage.Similar
import Mq.Storage.Counters
import Mq.Storage.Recovery
import Mq.Storage.Repair
import Mq.Storage.Crash
import Mq.Storage.Whole
import Mq.Controller.Fsm
import Mq.Controller.Snapshot
import Mq.Controller.IndexStore
import Mq.Controller.Placement
import Mq.Controller.Forward
import Mq.Group.Coordinator
import Mq.Group.Generation
import Mq.Group.Protocol
import Mq.Group.Common
import Mq.Group.Assignment
import Mq.Group.Offsets
import Mq.Group.Idle
import Mq.Group.Session
import Mq.Group.OffsetCrash
import Mq.Replication.Fetcher
import Mq.Replication.Manager
import Mq.Broker.Members
import Mq.Broker.Replica
import Mq.Broker.Catalog
import Mq.Broker.Administration
import Mq.Broker.Holdings
import Mq.Broker.Registration
import Mq.Broker.Directories
import Mq.Broker.Follow
import Mq.Controller.Liveness
import Mq.Server.Handlers
import Mq.Server.Produce
import Mq.Server.Partitions
import Mq.Server.Dispatch
import Mq.Server.AutoCreate
import Mq.Server.Responses
import Mq.Server.Commit
import Mq.Cluster.System
import Mq.Cluster.Base
import Mq.Cluster.Leader
import Mq.Cluster.Consume
import Mq.Cluster.Agreement
import Mq.Cluster.Failover
import Mq.Object.Index
import Mq.Object.Wal
import Mq.Object.WalFile
import Mq.Object.WalStore
import Mq.Object.WalFailure
import Mq.Object.Storage
import Mq.Object.Node
import Mq.Object.Keys
import Mq.Object.Parts
import Mq.Object.Uploader
import Mq.Object.Moves
import Mq.Object.Trim
import Mq.Object.Failure
import Mq.Object.Chained
import Mq.Object.Reopen
import Mq.Object.Read
import Mq.Object.Contents
import Mq.Object.Collect
import Mq.Object.Located
import Mq.Object.TimeLookup
import Mq.Object.Replay
import Mq.Object.Handle
import Mq.Backend.LogEnd
import Mq.Backend.Parity
import Mq.Backend.Ordering
import Mq.Backend.Retention
