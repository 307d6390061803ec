import OsProjects.Framework.Machine
import OsProjects.Framework.Bytes
import OsProjects.Framework.Extents
import OsProjects.Slob.Blocks
import OsProjects.Slob.PageAlloc
import OsProjects.Slob.PageFree
import OsProjects.Slob.Heap
import OsProjects.Slob.Invariant
import OsProjects.Slob.Sections
import OsProjects.Slob.System
import OsProjects.Slob.Calls
import OsProjects.Slob.Guarantees
import OsProjects.Slob.Kmalloc
import OsProjects.Slob.KmallocRuns
import OsProjects.Philosophers.Model
import OsProjects.Philosophers.Permits
import OsProjects.Philosophers.Monitors
import OsProjects.Philosophers.Ownership
import OsProjects.Philosophers.Deadlock
import OsProjects.Framework.LinkedList
import OsProjects.SearchList.Store
import OsProjects.SearchList.Threads
import OsProjects.SearchList.Accounts
import OsProjects.BlockDevice.Driver
import OsProjects.BlockDevice.Blocks
import OsProjects.BlockDevice.Requests
import OsProjects.BlockDevice.Refinement
import OsProjects.BlockDevice.Sectors
import OsProjects.BlockDevice.Completion
import OsProjects.Framework.Mutex
import OsProjects.SearchList.Locks
import OsProjects.SearchList.Lost
import OsProjects.SearchList.Exclusion
import OsProjects.SearchList.Walks
import OsProjects.Elevator.Queue
import OsProjects.Elevator.Rings
import OsProjects.Elevator.Sweep
import OsProjects.Elevator.Termination
import OsProjects.Slob.Accounting
import OsProjects.Slob.Canonical
import OsProjects.Slob.BestFit
import OsProjects.Slob.SpAlt
import OsProjects.Slob.FirstFit
import OsProjects.Framework.Stack
import OsProjects.ProducerConsumer.Model
import OsProjects.ProducerConsumer.Delivery
import OsProjects.BlockDevice.Lifecycle
import OsProjects.BlockDevice.Leaks
import OsProjects.ProducerConsumer.Loss
import OsProjects.BlockDevice.Geometry
import OsProjects.ProducerConsumer.Random
import OsProjects.BlockDevice.Service
import OsProjects.Philosophers.Interrupts
import OsProjects.Philosophers.LostPermits
import OsProjects.Framework.Loops
import OsProjects.Framework.Recurrence
import OsProjects.Framework.XorShift
import OsProjects.Framework.Simulation
import OsProjects.Twister.Generator
import OsProjects.Twister.Stream
import OsProjects.Twister.Period
import OsProjects.Twister.Widths
import OsProjects.ProducerConsumer.Program
import OsProjects.ProducerConsumer.Progress
import OsProjects.Slob.Tenants
import OsProjects.Slob.Caches
import OsProjects.Slob.CacheRuns
import OsProjects.SearchList.Coarse
import OsProjects.SearchList.Atomic
import OsProjects.Philosophers.Circles
import OsProjects.Elevator.Fairness
import OsProjects.BlockDevice.Keys
import OsProjects.Framework.Potential
import OsProjects.Philosophers.Meals
import OsProjects.Philosophers.Turns
import OsProjects.Philosophers.Patience
