import Octopos.Log.Crash
import Octopos.Fs.ShortWrite
import Octopos.Fs.KernelWrite
import Octopos.Fs.MakePath
import Octopos.Sched.PassUpdate
import Octopos.Sched.Share
import Octopos.Sched.VirtualTime
import Octopos.Ipc.Wakeup
import Octopos.Buf.Logical
import Octopos.Buf.Lru
import Octopos.Mkfs.Limits
import Octopos.Console.Committed
import Octopos.Sync.Waiters
import Octopos.Vm.FiniteMap
import Octopos.Log.Reservation
import Octopos.Vm.TearDown
import Octopos.Kernel.Fork
import Octopos.Kernel.Wait
import Octopos.Kernel.PipeRead
import Octopos.Kernel.UserMemory
import Octopos.Vm.ElfLoad
import Octopos.User.History
import Octopos.User.ExecArgs
import Octopos.User.Tokenizer
import Octopos.Virtio.RingIndex
import Octopos.Sync.SpinLock
import Octopos.Log.Batch
