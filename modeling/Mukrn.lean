import Mukrn.Table.RoundRobin
import Mukrn.Table.Sleep
import Mukrn.Table.Termination
import Mukrn.Table.Wait
import Mukrn.Table.WakeCount
import Mukrn.Memory.Failure
import Mukrn.Memory.Firmware
import Mukrn.Memory.FrameAccess
import Mukrn.Memory.Protect
import Mukrn.Memory.Switch
import Mukrn.Memory.LiveFrames
import Mukrn.Memory.Heap
import Mukrn.Memory.HeapGrowth
import Mukrn.Memory.Staging
import Mukrn.Memory.Mmap
import Mukrn.Fat32.BulkLoad
import Mukrn.Fat32.Capacity
import Mukrn.Fat32.Copies
import Mukrn.Fat32.Delete
import Mukrn.Fat32.FileData
import Mukrn.Fat32.Names
import Mukrn.Fat32.Refused
import Mukrn.Fat32.ShortNames
import Mukrn.Fat32.Transient
import Mukrn.Fat32.WalkEnd
import Mukrn.Shell.Keyboard
import Mukrn.Shell.Lines
import Mukrn.Shell.Transfer
