import Xv6.CrashRecovery
import Xv6.LogAdmission
import Xv6.BcacheCoherence
import Xv6.WritePath
import Xv6.CowRefinement
import Xv6.CowExact
import Xv6.DoubleFree
import Xv6.PipeWakeup
import Xv6.SleepWakeup
import Xv6.FreshProcess
import Xv6.KillRace
import Xv6.Reaping
import Xv6.ConsoleLine
import Xv6.UmallocRuns
import Xv6.FileCounts
import Xv6.VirtioProtocol
import Xv6.SwtchRuns
import Xv6.FsDirMap
import Xv6.FsFault
import Xv6.Sbrk
import Xv6.PageMap
import Xv6.ExecStack
import Xv6.ExecAtomic
import Xv6.Grep
import Xv6.ShellPrint
import Xv6.ShellTerminate
import Xv6.UmallocBreak
import Xv6.PipeRead
import Xv6.CopyInStr
import Xv6.FileRead
import Xv6.PushOff
import Xv6.FsCreateFails
import Xv6.Memmove
import Xv6.FsRuns
