import Gramine.SyncData
import Gramine.EpollMod
import Gramine.ElfErrors
import Gramine.VmaWalk
import Gramine.FileLockMap
import Gramine.FileLockFcntl
import Gramine.TrustedFileCopy
import Gramine.AllowedPath
import Gramine.VmaProtect
import Gramine.UnixControl
import Gramine.UnixNonblocking
import Gramine.AsyncWorker
import Gramine.Ioctl
import Gramine.RwLockRun
import Gramine.PalEvent
import Gramine.VmaMemMgr
import Gramine.IpcResponseRun
import Gramine.IpcFraming
import Gramine.HandleMapRun
import Gramine.PidReturn
import Gramine.ProtectedFileNodes
import Gramine.MemFile
import Gramine.SignalRun
import Gramine.RecvMsg
import Gramine.FutexOps
import Gramine.FileLockAnswer
import Gramine.FileLockInode
import Gramine.Hostname
