import GDFileStore.Combine.Edges
import GDFileStore.Blocks.Crash
import GDFileStore.Blocks.ReadBack
import GDFileStore.Blocks.DiskWrite
import GDFileStore.Blocks.Interleaved
import GDFileStore.Blocks.Commute
import GDFileStore.Blocks.Faults
import GDFileStore.Blocks.EarlyReads
import GDFileStore.Blocks.Serials
import GDFileStore.Blocks.Replaced
import GDFileStore.Blocks.OutOfRange
import GDFileStore.Blocks.BlockFiles
import GDFileStore.Queues.ExactlyOnce
import GDFileStore.Queues.AcceptanceOrder
import GDFileStore.Queues.Refinement
import GDFileStore.Queues.Teardown
import GDFileStore.Serialize.Stream
import GDFileStore.Messages.Endpoints
import GDFileStore.Messages.WriteRequest
import GDFileStore.Messages.Malformed
import GDFileStore.Attributes.Records
import GDFileStore.Attributes.Identity
import GDFileStore.Headers.Restarts
import GDFileStore.Headers.Erasure
import GDFileStore.Config.History
import GDFileStore.Client.Waits
import GDFileStore.Journal.Isolation
import GDFileStore.Journal.Linear
import GDFileStore.Journal.Crash
import GDFileStore.Journal.PrefixScan
import GDFileStore.Journal.UniqueStr
import GDFileStore.Journal.NamedEdits
import GDFileStore.Journal.ObjectData
import GDFileStore.Pools.Wakeups
import GDFileStore.Timers.RestJobs
import GDFileStore.Timers.TickEnds
import GDFileStore.Timers.Termination
import GDFileStore.Queues.OnRecords
import GDFileStore.Blocks.ReadsOnRecords
import GDFileStore.Network.Delivery
import GDFileStore.Network.ReadYourWrites
import GDFileStore.Network.Synchronous
