import Ctgfs.Lock.HandOver
import Ctgfs.Mvcc.Snapshot
import Ctgfs.Fs.FlushAttributes
import Ctgfs.Storage.TornTail
import Ctgfs.Wire.Transport
import Ctgfs.Wire.ReceiveSafety
import Ctgfs.Fs.DirectoryCodec
import Ctgfs.Storage.FlushFailures
import Ctgfs.Util.LruCache
import Ctgfs.Kv.RaftKv
import Ctgfs.Mvcc.Interference
import Ctgfs.WriteAhead.Wal
import Ctgfs.Placement.AdjustMoves
import Ctgfs.Placement.OwnerReport
import Ctgfs.Placement.AdjustCapacity
import Ctgfs.Placement.MasterMove
import Ctgfs.Fs.LookupResults
import Ctgfs.Fs.HeartBeat
import Ctgfs.Fs.DirtyMirror
import Ctgfs.Placement.Inums
import Ctgfs.Placement.SlotCounts
import Ctgfs.Lock.FailedCalls
import Ctgfs.Lock.FailedRpcs
import Ctgfs.Rpc.Deadlines
import Ctgfs.Rpc.Acknowledged
import Ctgfs.Kv.RocksFsm
import Ctgfs.Placement.Registry
import Ctgfs.Placement.Registrations
import Ctgfs.Placement.Neighbour
import Ctgfs.Storage.FailingInputs
import Ctgfs.Fs.Cluster
import Ctgfs.Fs.CachedFuse
import Ctgfs.Rpc.ThreadPool
import Ctgfs.Rpc.ExactlyOnce
import Ctgfs.Rpc.PollMgr
