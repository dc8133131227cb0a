import BoarOS.Vma.Gap
import BoarOS.Vma.Mprotect
import BoarOS.Sem.Properties
import BoarOS.Shm.Properties
import BoarOS.MemoryObject.Properties
import BoarOS.Ipc.Identifiers
import BoarOS.Msg.Selection
import BoarOS.Mqueue.Properties
import BoarOS.RunQueue.Properties
import BoarOS.Rwlock.Ranked
import BoarOS.Wait.TokenProperties
import BoarOS.Pipe.Properties
import BoarOS.Pid.Properties
import BoarOS.PageWriters.Properties
import BoarOS.RecordLock.Deadlock
import BoarOS.RecordLock.Query
import BoarOS.PathResolution
import BoarOS.RobustList
import BoarOS.SplitQueue
import BoarOS.ElfLayout
import BoarOS.RtBandwidth
import BoarOS.Deadline
import BoarOS.AvlIndex
import BoarOS.BuddyCells
import BoarOS.Groups
