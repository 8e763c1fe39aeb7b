import Wippy.Theorems.Cdc.Replication
import Wippy.Theorems.Crdt.Convergence
import Wippy.Theorems.Eventual.Gauges
import Wippy.Theorems.Eventual.Packing
import Wippy.Theorems.Eventual.Queue
import Wippy.Theorems.Eventual.Release
import Wippy.Theorems.Eventual.Resurrection
import Wippy.Theorems.Eventual.Sequential
import Wippy.Theorems.Global.Replica
import Wippy.Theorems.Http.RealIP
import Wippy.Theorems.Hub.OperationPlanner
import Wippy.Theorems.Kv.Forward
import Wippy.Theorems.Kv.Freshness
import Wippy.Theorems.Kv.Leases
import Wippy.Theorems.Kv.Mutex
import Wippy.Theorems.Kv.Raft.Transactions
import Wippy.Theorems.Kv.Relay
import Wippy.Theorems.Kv.Watch
import Wippy.Theorems.Kv.WatchSource
import Wippy.Theorems.Kvbacked.Indexes
import Wippy.Theorems.Kvbacked.Safety
import Wippy.Theorems.Lua.Calls
import Wippy.Theorems.Queue.Memory
import Wippy.Theorems.Registry.Finder
import Wippy.Theorems.Registry.Plan
import Wippy.Theorems.Registry.Release
import Wippy.Theorems.Registry.Schedule
import Wippy.Theorems.Resource.Table
import Wippy.Theorems.Scheduler.Deque
import Wippy.Theorems.Security.Registry
import Wippy.Theorems.Supervisor.RestartWindow
import Wippy.Theorems.Wildcard
