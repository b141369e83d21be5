import AffinityPool.Foundation.TransitionSystem
import AffinityPool.Foundation.Record
import AffinityPool.Foundation.Tally
import AffinityPool.Foundation.Potential
import AffinityPool.Foundation.Channels
import AffinityPool.Foundation.Rotation
import AffinityPool.Foundation.Xorshift
import AffinityPool.Foundation.Sharing
import AffinityPool.Foundation.OneShot
import AffinityPool.Foundation.Executor
import AffinityPool.Queue.Cpu
import AffinityPool.Queue.Victims
import AffinityPool.Queue.Scan
import AffinityPool.Queue.Machine
import AffinityPool.Queue.Handshake
import AffinityPool.Queue.Counters
import AffinityPool.Queue.Storage
import AffinityPool.Queue.WakeCheck
import AffinityPool.Queue.Delivery
import AffinityPool.Queue.Covering
import AffinityPool.Queue.Drain
import AffinityPool.Queue.Stranding
import AffinityPool.Queue.Fifo
import AffinityPool.Queue.Routing
import AffinityPool.Queue.RouteHistory
import AffinityPool.Queue.Shutdown
import AffinityPool.Queue.EmptyScan
import AffinityPool.Queue.CheapScan
import AffinityPool.Queue.Respawn
import AffinityPool.Queue.RetryLoop
import AffinityPool.Queue.Settling
import AffinityPool.Queue.Channels
import AffinityPool.Queue.Bursts
import AffinityPool.Queue.Signals
import AffinityPool.Queue.Streams
import AffinityPool.Queue.Probing
import AffinityPool.Pool.BuildGlobal
import AffinityPool.Pool.Lifecycle
import AffinityPool.Pool.Drop
import AffinityPool.Pool.ThreadCount
import AffinityPool.Pool.Handles
import AffinityPool.Pool.Isolation
import AffinityPool.Pool.Recovery
import AffinityPool.Pool.SelfJoin
import AffinityPool.Pool.Builder
import AffinityPool.Pool.Teardown
import AffinityPool.Local.DropBlocking
import AffinityPool.Local.Deadlock
import AffinityPool.Local.ParkToken
import AffinityPool.Local.Wakeups
import AffinityPool.Local.Completion
import AffinityPool.Local.GlobalCalls
import AffinityPool.Local.Await
import AffinityPool.Local.Resolving
import AffinityPool.Local.Refinement
