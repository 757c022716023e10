import Lsmkv.Bloom
import Lsmkv.Bloom.Bounds
import Lsmkv.Checksum
import Lsmkv.Checksum.Reference
import Lsmkv.Coding
import Lsmkv.Compaction.Failure
import Lsmkv.Compaction.Merge
import Lsmkv.Compaction.Outputs
import Lsmkv.Compaction.Plan
import Lsmkv.Compaction.Scores
import Lsmkv.Compaction.WriteMerged
import Lsmkv.Engine.Clients
import Lsmkv.Engine.Consistent
import Lsmkv.Engine.Core
import Lsmkv.Engine.Dir
import Lsmkv.Engine.DirSync
import Lsmkv.Engine.FailedCall
import Lsmkv.Engine.Files
import Lsmkv.Engine.FlushCall
import Lsmkv.Engine.Interval
import Lsmkv.Engine.Layers
import Lsmkv.Engine.Ledger
import Lsmkv.Engine.Levels
import Lsmkv.Engine.Linearizable
import Lsmkv.Engine.Logs
import Lsmkv.Engine.Monitor
import Lsmkv.Engine.Moves
import Lsmkv.Engine.Numbering
import Lsmkv.Engine.Open
import Lsmkv.Engine.Openable
import Lsmkv.Engine.Progress
import Lsmkv.Engine.Publish
import Lsmkv.Engine.Queue
import Lsmkv.Engine.Recency
import Lsmkv.Engine.Recovery
import Lsmkv.Engine.Reopen
import Lsmkv.Engine.Replay
import Lsmkv.Engine.Sequence
import Lsmkv.Engine.Sessions
import Lsmkv.Engine.Settle
import Lsmkv.Engine.State
import Lsmkv.Engine.Step
import Lsmkv.Engine.Visible
import Lsmkv.Engine.Wakeups
import Lsmkv.Lib.BinarySearch
import Lsmkv.Lib.Chain
import Lsmkv.Lib.Checked
import Lsmkv.Lib.Codec
import Lsmkv.Lib.Incremental
import Lsmkv.Lib.Interleave
import Lsmkv.Lib.Iter
import Lsmkv.Lib.Linearizable
import Lsmkv.Lib.Progress
import Lsmkv.Lib.Rounding
import Lsmkv.Lib.Run
import Lsmkv.Lib.Tally
import Lsmkv.Lib.Transition
import Lsmkv.Lib.Version
import Lsmkv.Lib.VersionedMap
import Lsmkv.Lookup
import Lsmkv.Manifest
import Lsmkv.Manifest.Codec
import Lsmkv.Memtable
import Lsmkv.Server.Command
import Lsmkv.Server.Concurrent
import Lsmkv.Server.Connection
import Lsmkv.Server.Pipeline
import Lsmkv.Server.Program
import Lsmkv.Server.Replies
import Lsmkv.Server.Resp
import Lsmkv.Server.Text
import Lsmkv.Skiplist.Agree
import Lsmkv.Skiplist.Alone
import Lsmkv.Skiplist.Calls
import Lsmkv.Skiplist.Invariant
import Lsmkv.Skiplist.Levels
import Lsmkv.Skiplist.Linearizable
import Lsmkv.Skiplist.Pressure
import Lsmkv.Skiplist.Step
import Lsmkv.Skiplist.Table
import Lsmkv.Skiplist.Threads
import Lsmkv.Skiplist.Writers
import Lsmkv.Sstable
import Lsmkv.Sstable.Bounds
import Lsmkv.Sstable.Burst
import Lsmkv.Sstable.Reader
import Lsmkv.Sstable.RoundTrip
import Lsmkv.Sstable.Scan
import Lsmkv.Sstable.Writer
import Lsmkv.Wal.Alone
import Lsmkv.Wal.Calm
import Lsmkv.Wal.FailedWrite
import Lsmkv.Wal.Framing
import Lsmkv.Wal.GroupCommit
import Lsmkv.Wal.Log
import Lsmkv.Wal.Moves
import Lsmkv.Wal.Progress
import Lsmkv.Wal.Reader
import Lsmkv.Wal.Record
import Lsmkv.Wal.Recover
import Lsmkv.Wal.Restart
import Lsmkv.Wal.Shared
