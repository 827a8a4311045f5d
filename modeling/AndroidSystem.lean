import AndroidSystem.Adb.Auth
import AndroidSystem.Adb.Fdevent
import AndroidSystem.Adb.Isolation
import AndroidSystem.Adb.Lifetime
import AndroidSystem.Adb.StreamFlow
import AndroidSystem.Adb.SyncStep
import AndroidSystem.Cutils.StrParmsText
import AndroidSystem.Ext4.ExtentMap
import AndroidSystem.Ext4.FailedAllocation
import AndroidSystem.Ext4.ResizeInode
import AndroidSystem.Liblog.BinaryMessage
import AndroidSystem.Lmkd.KillTimeout
import AndroidSystem.Logd.PruneProgress
import AndroidSystem.Logd.Stream
import AndroidSystem.Mincrypt.DsaSig
import AndroidSystem.Mincrypt.Modinv
import AndroidSystem.Mincrypt.PointLaw
import AndroidSystem.Mincrypt.Rsa
import AndroidSystem.Mincrypt.Sha256
import AndroidSystem.Netutils.Packet
import AndroidSystem.Sdcard.Path
import AndroidSystem.Sdcard.Permissions
import AndroidSystem.Sparse.QueueMap
import AndroidSystem.Sparse.SearchHint
import AndroidSystem.Sparse.Sinks
import AndroidSystem.Sysutils.FrameworkListener
import AndroidSystem.Utils.BlobCacheRoundTrip
import AndroidSystem.Utils.LinearTransform
import AndroidSystem.Utils.LruCacheRun
import AndroidSystem.Utils.Transcode
import AndroidSystem.Utils.VectorRun
import AndroidSystem.Zip.Extract
