import EasyLib.Common.Config
import EasyLib.Common.MysqlPool
import EasyLib.Common.RefPtr
import EasyLib.Common.SpinLock
import EasyLib.Common.Strops
import EasyLib.Easytcp.Accepting
import EasyLib.Easytcp.Threadpool
import EasyLib.Easytcp.Worker
import EasyLib.Frame.Modules
import EasyLib.Frame.ProcessTree
import EasyLib.Frame.Skel
import EasyLib.Http.EasyHttp
import EasyLib.Http.HttpContext
import EasyLib.Http.HttpService
import EasyLib.Http.Request
import EasyLib.Leecode.InvertTree
import EasyLib.Leecode.MergeInterval
import EasyLib.Leecode.MinimumTree
import EasyLib.Leecode.RemoveNthFromEnd
import EasyLib.Leecode.ReorderList
import EasyLib.Leecode.TwoSum
import EasyLib.Leecode.VerifyPreorder
import EasyLib.Lib.Batches
import EasyLib.Lib.CondVar
import EasyLib.Lib.Counting
import EasyLib.Lib.CppString
import EasyLib.Lib.ForLoop
import EasyLib.Lib.HeapTree
import EasyLib.Lib.LinkedList
import EasyLib.Lib.Loop
import EasyLib.Lib.MachineInt
import EasyLib.Lib.OrdMap
import EasyLib.Lib.Progress
import EasyLib.Lib.Records
import EasyLib.Lib.Rotation
import EasyLib.Lib.Run
import EasyLib.Lib.Runs
import EasyLib.Lib.Tokens
import EasyLib.Lib.TreePeeling
import EasyLib.Proof.Accepts
import EasyLib.Proof.Answering
import EasyLib.Proof.BufferFifo
import EasyLib.Proof.BufferMemory
import EasyLib.Proof.BufferRoom
import EasyLib.Proof.Cancellation
import EasyLib.Proof.ClientWrites
import EasyLib.Proof.ConfigFile
import EasyLib.Proof.ConfigReload
import EasyLib.Proof.ConnectionPool
import EasyLib.Proof.ConnectionStages
import EasyLib.Proof.Deadlines
import EasyLib.Proof.DelimiterRuns
import EasyLib.Proof.FdEvents
import EasyLib.Proof.Forking
import EasyLib.Proof.Functors
import EasyLib.Proof.FunctorsStarted
import EasyLib.Proof.GracefulShutdown
import EasyLib.Proof.Handoff
import EasyLib.Proof.HandoffProgress
import EasyLib.Proof.HtmlTags
import EasyLib.Proof.IntervalCover
import EasyLib.Proof.JobQueue
import EasyLib.Proof.Lifecycle
import EasyLib.Proof.ListReordering
import EasyLib.Proof.LoopCallbacks
import EasyLib.Proof.LoopExit
import EasyLib.Proof.LoopRotation
import EasyLib.Proof.LoopThreadPool
import EasyLib.Proof.MinHeightTrees
import EasyLib.Proof.ModuleEntries
import EasyLib.Proof.MutualExclusion
import EasyLib.Proof.NodeRemoval
import EasyLib.Proof.PairSums
import EasyLib.Proof.Polling
import EasyLib.Proof.PoolProgress
import EasyLib.Proof.PreorderTrees
import EasyLib.Proof.QueryParams
import EasyLib.Proof.ReadyEvents
import EasyLib.Proof.Recovery
import EasyLib.Proof.RefCounting
import EasyLib.Proof.Replies
import EasyLib.Proof.RequestContexts
import EasyLib.Proof.ScanTermination
import EasyLib.Proof.SendDelivery
import EasyLib.Proof.SentBytes
import EasyLib.Proof.ServerLoops
import EasyLib.Proof.ServerRefinement
import EasyLib.Proof.Shutdown
import EasyLib.Proof.SpanRemoval
import EasyLib.Proof.SpinLockProgress
import EasyLib.Proof.StartupHandshake
import EasyLib.Proof.Stream
import EasyLib.Proof.StringSimilarity
import EasyLib.Proof.Supervision
import EasyLib.Proof.ThreadControl
import EasyLib.Proof.TimerCovered
import EasyLib.Proof.TimerFiring
import EasyLib.Proof.TimerIds
import EasyLib.Proof.TimerIndexes
import EasyLib.Proof.TimerOneShot
import EasyLib.Proof.TimerPace
import EasyLib.Proof.Tokenizing
import EasyLib.Proof.TreeInversion
import EasyLib.Proof.TruthfulStart
import EasyLib.Proof.UrlDecoding
import EasyLib.Proof.WorkerClients
import EasyLib.Proof.WorkerStart
import EasyLib.Proof.WriteInterest
import EasyLib.Reactors.Actor
import EasyLib.Reactors.Buffer
import EasyLib.Reactors.Channel
import EasyLib.Reactors.Connection
import EasyLib.Reactors.Dispatch
import EasyLib.Reactors.IoLoop
import EasyLib.Reactors.Schedule
import EasyLib.Reactors.SelectPoller
import EasyLib.Reactors.Sending
import EasyLib.Reactors.Server
import EasyLib.Reactors.Startup
import EasyLib.Reactors.TcpServer
import EasyLib.Reactors.Timer
import EasyLib.Reactors.TimerCancel
import EasyLib.Reactors.TimerId
import EasyLib.Reactors.TimerSpec
import EasyLib.Reactors.Workers
import EasyLib.Thread.EasyEvent
import EasyLib.Thread.EventLoop
import EasyLib.Thread.EventLoopThreadPool
import EasyLib.Thread.Starting
import EasyLib.Thread.Thread
