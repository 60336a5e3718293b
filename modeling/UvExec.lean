import UvExec.Execution.StopFlag
import UvExec.Execution.Handover
import UvExec.Execution.OneThread
import UvExec.Execution.SyncWait
import UvExec.Execution.RunnerLinks
import UvExec.Execution.Destructor
import UvExec.Execution.TakeAll
import UvExec.Execution.LoopWork
import UvExec.Algorithms.Deadlines
import UvExec.Algorithms.ReadUntil
import UvExec.Algorithms.RequestCompletion
import UvExec.Algorithms.ReceiverLifetime
import UvExec.Algorithms.DataAccounting
import UvExec.Algorithms.StopBeforeStart
import UvExec.Algorithms.StreamBytes
import UvExec.Algorithms.Datagrams
import UvExec.Algorithms.StreamWrites
import UvExec.Algorithms.CompletionSignatures
import UvExec.Algorithms.LoopOperations
import UvExec.Sockets.Connections
import UvExec.Sockets.ListenCounter
import UvExec.Sockets.OpenHandles
import UvExec.Sockets.AcceptLinks
import UvExec.Sockets.AcceptLifetime
import UvExec.Sockets.AcceptStopped
import UvExec.Sockets.ServiceOrder
import UvExec.Util.IntrusiveLists
import UvExec.Util.Lazy
