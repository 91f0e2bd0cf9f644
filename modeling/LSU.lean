import LSU.Run
import LSU.Text
import LSU.SwapEnv
import LSU.DisplayPool
import LSU.Commands
import LSU.Words
import LSU.PatchInit
import LSU.CallConstructors
import LSU.Dlopen
import LSU.Json
import LSU.LibraryFolders
import LSU.UpgradeRuntime
import LSU.Program
import LSU.Mounts
import LSU.MountRecord
import LSU.MountRuntime
import LSU.MountConcurrent
import LSU.PurgeReaper
import LSU.Webhelper
import LSU.Closure
import LSU.Leftovers
import LSU.InitTmpDir
import LSU.Rescue
import LSU.Paths
import LSU.UserDirs
import LSU.MirrorMounts
import LSU.FileTree
import LSU.FileJobs
import LSU.WineSetUp
import LSU.WineResume
import LSU.WorkerPool
import LSU.Debs
import LSU.Umount
import LSU.DummyUvm
import LSU.Numerals
import LSU.RubyString
import LSU.Versions
import LSU.Kill
import LSU.PruneRuntimes
import LSU.Undump
import LSU.OsRelease
import LSU.PatchSafety
import LSU.Bootstrap
import LSU.DrmLinks
import LSU.DisplayLock
import LSU.DisplayLinear
import LSU.Sweep
import LSU.UmountTable
import LSU.ChrootEnv
import LSU.PatchSteam
import LSU.Requirements
import LSU.Session
import LSU.SessionCleanup
import LSU.CopyLibs
import LSU.Reach
import LSU.LinkFarm
import LSU.Sysctl
import LSU.Gamepads
