import Chewie.Drivers.Mtd.Ftl
import Chewie.Drivers.Mtd.Hamming
import Chewie.Drivers.Pipes.Refs
import Chewie.Drivers.Rwbuffer.Runs
import Chewie.Fs.Fat.Readonly
import Chewie.Fs.Fat.Truncate
import Chewie.Fs.Vfs.Select
import Chewie.Libc.Fixedmath.Ubsqrt
import Chewie.Libc.Misc.Kbd
import Chewie.Libc.Misc.Slcd
import Chewie.Libc.Net.Ntop
import Chewie.Libc.Pthread.Once
import Chewie.Libc.Pthread.Rwlock
import Chewie.Libc.Stdio.Fflush
import Chewie.Libc.Time.Gregorian
import Chewie.Mm.Gran.Alloc
import Chewie.Mm.Heap.Lock
import Chewie.Mm.Heap.Mallinfo
import Chewie.Mm.Heap.Payload
import Chewie.Mm.Heap.Tasks
import Chewie.Mm.Iob.Copy
import Chewie.Mm.Iob.Throttle
import Chewie.Motor.Devices
import Chewie.Net.Mask
import Chewie.Pwm.Start
import Chewie.Sched.Inherit.Runs
import Chewie.Sched.Mqueue.Runs
import Chewie.Sched.Pthread.Mutex
import Chewie.Sched.Queue
import Chewie.Sched.Ready.Runs
import Chewie.Sched.Sem.Runs
import Chewie.Sched.Sporadic.Runs
import Chewie.Sched.Timer.Settime
import Chewie.Sched.Wdog.Runs
import Chewie.Sched.Wdog.Tickless
import Chewie.Sched.Wqueue.Runs
