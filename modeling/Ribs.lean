import Ribs.Common.Prog
import Ribs.Common.Sim
import Ribs.Common.Respects
import Ribs.Common.Mild
import Ribs.Common.Runs
import Ribs.Common.Deadlock
import Ribs.Common.EvenTree
import Ribs.Common.Merkle
import Ribs.Common.Differences
import Ribs.Common.Ancestry
import Ribs.Common.Uvarint
import Ribs.Common.Frame
import Ribs.Common.Endian
import Ribs.Common.Journal
import Ribs.Common.Chunks
import Ribs.Common.Kv
import Ribs.Common.Cbor
import Ribs.Common.Sha256
import Ribs.Bsst.Format
import Ribs.Bsst.Encoding
import Ribs.Bsst.Create
import Ribs.Bsst.Lookup
import Ribs.Bsst.Level
import Ribs.Bsst.Filter
import Ribs.Bsst.Layout
import Ribs.Bsst.Exact
import Ribs.Bsst.Range
import Ribs.Bsst.CborGen
import Ribs.Bsst.Crash
import Ribs.Carlog.Format
import Ribs.Carlog.Encoding
import Ribs.Carlog.Stream
import Ribs.Carlog.State
import Ribs.Carlog.Index
import Ribs.Carlog.Contents
import Ribs.Carlog.Rules
import Ribs.Carlog.Write
import Ribs.Carlog.Buffer
import Ribs.Carlog.Read
import Ribs.Carlog.Open
import Ribs.Carlog.TopTree
import Ribs.Carlog.Finalize
import Ribs.Carlog.System
import Ribs.Carlog.Live
import Ribs.Carlog.Walk
import Ribs.Carlog.Partial
import Ribs.Carlog.Once
import Ribs.Carlog.Rebuild
import Ribs.Carlog.Listed
import Ribs.Carlog.Recover
import Ribs.Carlog.Keeps
import Ribs.Carlog.Locks
import Ribs.Carlog.Released
import Ribs.Carlog.Marked
import Ribs.Carlog.Resume
import Ribs.Carlog.HeadRecord
import Ribs.Carlog.HeadFits
import Ribs.Carlog.Swap
import Ribs.Carlog.HeadKept
import Ribs.Carlog.Stages
import Ribs.Carlog.Packed
import Ribs.Carlog.ReadBack
import Ribs.Carlog.Places
import Ribs.Carlog.Durable
import Ribs.Rbstor.PebbleIndex
import Ribs.Rbstor.Group
import Ribs.Rbstor.Batch
import Ribs.Rbstor.Placing
import Ribs.Rbstor.TopIndex
import Ribs.Rbstor.Sizes
import Ribs.Rbstor.Stored
import Ribs.Rbstor.Written
import Ribs.Rbstor.Flush
import Ribs.Rbstor.Session
import Ribs.Rbstor.Delivery
import Ribs.Ributil.Commp
import Ribs.Ributil.Parcommp
import Ribs.Ributil.RateCounters
import Ribs.Ributil.RobustHttp
import Ribs.Ributil.Repair
import Ribs.Ributil.Sound
import Ribs.Ributil.Complete
import Ribs.Ributil.Unchanged
import Ribs.Carlog.CanonTree
import Ribs.Carlog.Blocks
import Ribs.Carlog.TopGen
import Ribs.Carlog.Canonical
import Ribs.Ributil.CurrentDealInfo
import Ribs.Rbdeal.CarServer
import Ribs.Rbdeal.GroupUpload
import Ribs.Rbdeal.S3Offload
import Ribs.Rbdeal.Deals
import Ribs.Rbdeal.DealProviders
import Ribs.Rbdeal.FetchBlocks
import Ribs.Rbdeal.Delivered
import Ribs.Rbdeal.Abandoned
import Ribs.Rbdeal.RetrChecker
import Ribs.Rbdeal.ChunkSize
import Ribs.Rbdeal.ClaimExtender
import Ribs.Rbdeal.DealRepair
import Ribs.Rbstor.Lifecycle
import Ribs.Rbstor.OffloadedFlag
import Ribs.Rbstor.InStep
import Ribs.Rbstor.Counters
import Ribs.Rbstor.RecordedHead
import Ribs.Rbstor.Counted
import Ribs.Rbstor.Manager
import Ribs.Rbstor.Worker
import Ribs.Rbstor.OffloadCandidate
import Ribs.Rbstor.Entries
import Ribs.Rbstor.Holders
import Ribs.Integrations.Blockstore
