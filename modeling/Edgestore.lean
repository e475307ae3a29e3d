import Edgestore.Lib.Bytes
import Edgestore.Lib.FramedLog
import Edgestore.Lib.Prog
import Edgestore.Lib.SortedMap
import Edgestore.Lib.Overlay
import Edgestore.Lib.Paging
import Edgestore.Types
import Edgestore.Externals
import Edgestore.Wal.Record
import Edgestore.Disk
import Edgestore.Manifest
import Edgestore.Lib.Codec
import Edgestore.PlainExternals
import Edgestore.Lib.Run
import Edgestore.Manifest.Replay
import Edgestore.Wal
import Edgestore.Segment.Reader
import Edgestore.Segment.Store
import Edgestore.Engine
import Edgestore.Compactor
import Edgestore.Strip
import Edgestore.Import
import Edgestore.World
import Edgestore.Segment.Table
import Edgestore.Segment.Flush
import Edgestore.Segment.Discipline
import Edgestore.Segment.StoreInv
import Edgestore.Segment.Reads
import Edgestore.Engine.Reads
import Edgestore.Engine.Pages
import Edgestore.Engine.Frames
import Edgestore.Engine.StoreFrames
import Edgestore.Engine.StoreSpec
import Edgestore.Engine.RewriteSpec
import Edgestore.Compactor.Spec
import Edgestore.Wal.Log
import Edgestore.Engine.WalSpec
import Edgestore.Engine.WalCalls
import Edgestore.WorldInv
import Edgestore.Compactor.Survival
import Edgestore.WalRuns
import Edgestore.WalOrder
import Edgestore.Engine.Commit
import Edgestore.TransactionCrash
import Edgestore.FailedWrites
import Edgestore.SegmentIds
import Edgestore.PointReads
import Edgestore.CompactionReads
import Edgestore.Engine.PageSpec
import Edgestore.Pagination
import Edgestore.Engine.ImportSpec
import Edgestore.ImportTtl
import Edgestore.RetiredWal
import Edgestore.LsnRestarts
import Edgestore.TornTail
import Edgestore.Settled
import Edgestore.Lib.Directory
import Edgestore.RemoteStore
import Edgestore.Replication.Exchange
import Edgestore.Replication.FixedPoint
import Edgestore.Lib.Pair
import Edgestore.Replication.AntiEntropy
import Edgestore.Replication.Node
import Edgestore.Replication.CycleSpec
import Edgestore.Replication.Rejection
import Edgestore.Replication.Fencing
import Edgestore.WalLossless
import Edgestore.Reopen
import Edgestore.ReadOnly
import Edgestore.Engine.Limits
import Edgestore.ReadBack
import Edgestore.OversizedBlocks
import Edgestore.Prune
import Edgestore.Snapshot
import Edgestore.SnapshotIsolation
import Edgestore.Segment.Format
import Edgestore.Segment.Walk
import Edgestore.Segment.Files
import Edgestore.Segment.PeerBytes
import Edgestore.Engine.PrefixScan
import Edgestore.RangeReference
import Edgestore.PrefixScans
import Edgestore.ScanBudgets
import Edgestore.Segment.InMemory
import Edgestore.ImmutableEngine
import Edgestore.StripFrame
import Edgestore.Segment.Metadata
import Edgestore.SegmentMetas
import Edgestore.VectorIsolation
import Edgestore.VectorFreshness
import Edgestore.Vector.HnswReach
import Edgestore.Tier.SegmentCache
import Edgestore.Tier.FastReads
import Edgestore.Vector.VectorPages
import Edgestore.Text.InvertedFile
import Edgestore.RefusedImports
import Edgestore.Segment.Written
import Edgestore.Compactor.Visits
import Edgestore.Compactor.Accounts
import Edgestore.MemTables
import Edgestore.KeyOrder
import Edgestore.Segment.Framing
import Edgestore.Text.Typo
import Edgestore.Text.BloomShortcut
import Edgestore.Text.FailedUpdates
import Edgestore.Text.Snippets
import Edgestore.StoreScans
import Edgestore.Text.Corpus
import Edgestore.Text.Consistency
import Edgestore.Lib.WriteBuffer
import Edgestore.FlushSessions
import Edgestore.FlushSafety
import Edgestore.OverlappingFlushes
import Edgestore.Lib.Recovery
import Edgestore.Lib.Phases
import Edgestore.CrashPoints
import Edgestore.LsnGrowth
import Edgestore.DurableSessions
import Edgestore.Watermark
import Edgestore.Tla.Spec
import Edgestore.Tla.Refinement
import Edgestore.Lib.LastWriter
import Edgestore.Replication.Merge
import Edgestore.Replication.Convergence
import Edgestore.ContentHashes
import Edgestore.Lib.Hex
import Edgestore.Replication.Http
import Edgestore.Replication.HttpCycle
