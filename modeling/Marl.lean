import Marl.Ownership
import Marl.Event
import Marl.Event.Wakeup
import Marl.MoveOnlyFunction
import Marl.Thread
import Marl.Thread.Join
import Marl.ProcessorGroups
import Marl.Memory
import Marl.DefaultAllocator
import Marl.Gf2
import Marl.FastRnd
import Marl.Containers.List
import Marl.Containers.Vector
