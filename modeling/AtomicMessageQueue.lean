import AtomicMessageQueue.Lib.Transition
import AtomicMessageQueue.Lib.Simulation
import AtomicMessageQueue.Lib.TicketRing
import AtomicMessageQueue.Lib.Tally
import AtomicMessageQueue.Lib.TicketCount
import AtomicMessageQueue.Lib.TicketQueue
import AtomicMessageQueue.Lib.BoundedFifo
import AtomicMessageQueue.Lib.Wakeup
import AtomicMessageQueue.Lib.Settling
import AtomicMessageQueue.Lib.Shares
import AtomicMessageQueue.Lib.FlagRun
import AtomicMessageQueue.Lib.Annotation
import AtomicMessageQueue.Lib.NamedObjects
import AtomicMessageQueue.Lib.Attempts
import AtomicMessageQueue.Shm.Memory
import AtomicMessageQueue.Shm.Events
import AtomicMessageQueue.Shm.Queue
import AtomicMessageQueue.Shm.Inversion
import AtomicMessageQueue.Sequential.Calls
import AtomicMessageQueue.Sequential.Tickets
import AtomicMessageQueue.Sequential.Holders
import AtomicMessageQueue.Sequential.GiveBack
import AtomicMessageQueue.Sequential.Sweep
import AtomicMessageQueue.Sequential.ListQueue
import AtomicMessageQueue.Sequential.Closed
import AtomicMessageQueue.Sequential.MessageCount
import AtomicMessageQueue.System.Machine
import AtomicMessageQueue.System.Sides
import AtomicMessageQueue.System.Ring
import AtomicMessageQueue.System.Exclusion
import AtomicMessageQueue.System.Helping
import AtomicMessageQueue.System.Messages
import AtomicMessageQueue.System.Streams
import AtomicMessageQueue.System.Bounds
import AtomicMessageQueue.System.Stores
import AtomicMessageQueue.System.Spsc
import AtomicMessageQueue.System.Wakeups
import AtomicMessageQueue.System.Accounts
import AtomicMessageQueue.System.Contention
import AtomicMessageQueue.System.Laps
import AtomicMessageQueue.System.Verdicts
import AtomicMessageQueue.System.Effort
import AtomicMessageQueue.System.Delivery
import AtomicMessageQueue.System.Order
import AtomicMessageQueue.System.Counter
import AtomicMessageQueue.Events.Threads
import AtomicMessageQueue.Events.Asleep
import AtomicMessageQueue.Events.Signals
import AtomicMessageQueue.Events.Clock
import AtomicMessageQueue.System.Rooms
import AtomicMessageQueue.System.Closing
import AtomicMessageQueue.Creation.Segment
import AtomicMessageQueue.Creation.Once
import AtomicMessageQueue.Creation.Use
import AtomicMessageQueue.Client.Connect
import AtomicMessageQueue.Client.Lifetime
import AtomicMessageQueue.Client.Endpoint
import AtomicMessageQueue.Client.Send
import AtomicMessageQueue.Client.ClearQueue
import AtomicMessageQueue.Client.Timeouts
import AtomicMessageQueue.Client.Names
import AtomicMessageQueue.Lib.Mutex
import AtomicMessageQueue.Lib.Roles
import AtomicMessageQueue.Pevents.Calls
import AtomicMessageQueue.Pevents.Threads
import AtomicMessageQueue.Pevents.Guards
import AtomicMessageQueue.Pevents.Tokens
import AtomicMessageQueue.Pevents.References
import AtomicMessageQueue.Pevents.Lifetimes
import AtomicMessageQueue.Pevents.Dealings
import AtomicMessageQueue.Pevents.Outcomes
import AtomicMessageQueue.Pevents.Sleepers
import AtomicMessageQueue.Pevents.Progress
