import CephDokan.Auth.Handshake
import CephDokan.Client.CapsInUse
import CephDokan.Client.DirtyRefs
import CephDokan.Client.Getcwd
import CephDokan.Client.InodeBits
import CephDokan.Client.QuotaRoot
import CephDokan.Client.ReadSync
import CephDokan.Client.RequestLife
import CephDokan.Client.SnapMessages
import CephDokan.Client.SyncCaps
import CephDokan.Client.WriteAccount
import CephDokan.Common.BufferZero
import CephDokan.Common.Readahead
import CephDokan.Crush.ListBucket
import CephDokan.Dokan.AclXattr
import CephDokan.Dokan.ReadOnly
import CephDokan.Include.FragPartition
import CephDokan.Include.IntervalFaithful
import CephDokan.Include.Utime
import CephDokan.Mds.FlockCounts
import CephDokan.Mds.FlockRanges
import CephDokan.Msg.Balance
import CephDokan.Osd.OSDOp
import CephDokan.Osd.PoolNames
import CephDokan.Osd.PoolSnaps
import CephDokan.Osdc.NumObjects
import CephDokan.Osdc.ObjectCacher.CachedRead
import CephDokan.Osdc.ObjectCacher.Completeness
import CephDokan.Osdc.ObjectCacher.ReadReply
import CephDokan.Osdc.ObjectTruncate
import CephDokan.Client.Placement
import CephDokan.Msg.PipeAcks
