import Pintos.Klib.Hash
import Pintos.Threads.Rounding
import Pintos.Threads.PriorityUpdate
import Pintos.Threads.AgingLaw
import Pintos.Threads.Condition
import Pintos.Devices.Wakeup
import Pintos.Devices.Ide
import Pintos.Devices.IntqWaiters
import Pintos.Userprog.DeadChild
import Pintos.Userprog.WaitTest
import Pintos.Userprog.Orphan
import Pintos.Userprog.ExitStatus
import Pintos.Userprog.SyscallEntry
import Pintos.Filesys.FailedCreate
import Pintos.Filesys.References
import Pintos.Userprog.FdTable
import Pintos.Userprog.ArgStack
import Pintos.Filesys.DenyWrite
import Pintos.Filesys.DirRace
import Pintos.Filesys.DirMap
import Pintos.Userprog.PageFault
import Pintos.Userprog.Segment
import Pintos.Klib.Arithmetic
import Pintos.Threads.WakeOrder
import Pintos.Klib.ListSort
import Pintos.Threads.Heap
import Pintos.Klib.Strings
import Pintos.Klib.Strtok
import Pintos.Devices.Calibrate
import Pintos.Devices.Partition
import Pintos.Devices.Rtc
import Pintos.Threads.Init
