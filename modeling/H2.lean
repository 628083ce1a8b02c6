import H2.Booter.Load
import H2.Compat.AllsignalReturn
import H2.Compat.Pipe
import H2.Compat.Signal
import H2.Event.Inttab
import H2.Futex.LockPiOpt
import H2.Futex.ResumeOpt
import H2.Kernel.Mutex
import H2.Locks.Picolibc
import H2.Mem.Compose
import H2.Mem.Fences
import H2.Mem.Heap
import H2.Mem.Pinned
import H2.Mem.Stlb
import H2.Posix.Barrier
import H2.Posix.CondSignal
import H2.Qurt.Mapping
import H2.Qurt.Pages
import H2.Sched.HandOff
import H2.Time.TimerHandover
import H2.Time.TimerOpt
import H2.Traps.Extbits
import H2.Util.Log
import H2.Util.Ring
import H2.Vm.Authority
import H2.Vm.IntopOpt
import H2.Vm.WaitEnd
