import Xv6.Bio.Exhaust
import Xv6.Bio.Links
import Xv6.Console.Line
import Xv6.Fs.DirMap
import Xv6.Fs.Failed
import Xv6.Fs.FreeMap
import Xv6.Fs.MkfsRead
import Xv6.Fs.ReadBound
import Xv6.Fs.ShortWrite
import Xv6.Ftable.Calls
import Xv6.Itable.Room
import Xv6.Log.Admission
import Xv6.Log.Crash
import Xv6.Pipe.Consume
import Xv6.Sched.Slots
import Xv6.Sched.Wait
import Xv6.Shell.Nulterminate
import Xv6.Shell.Redirect
import Xv6.Umalloc.Runs
import Xv6.User.Find
import Xv6.User.Grep
import Xv6.User.PrimesEnd
import Xv6.User.Xargs
import Xv6.Virtio.Safety
import Xv6.Vm.Sbrk
import Xv6.Vm.UserMemory
import Xv6.Memmove
import Xv6.Printf
