import UnixCodes.Lib.Transition
import UnixCodes.Lib.LinkedList
import UnixCodes.Lib.Family
import UnixCodes.Lib.History
import UnixCodes.ThreadPool.Model
import UnixCodes.ThreadPool.Queue
import UnixCodes.ThreadPool.Ledger
import UnixCodes.ThreadPool.ExactlyOnce
import UnixCodes.ThreadPool.Wakeup
import UnixCodes.ThreadPool.Order
import UnixCodes.ThreadPool.Create
import UnixCodes.ThreadPool.Resources
import UnixCodes.Lib.Window
import UnixCodes.NoBlockingTcpClient.Model
import UnixCodes.NoBlockingTcpClient.ByteStreams
import UnixCodes.NoBlockingTcpClient.HalfClose
import UnixCodes.NoBlockingTcpClient.SocketEof
import UnixCodes.NoBlockingTcpClient.Buffers
import UnixCodes.AcoHttpd.Response
import UnixCodes.AcoHttpd.Answered
import UnixCodes.AcoHttpd.Readiness
import UnixCodes.AcoHttpd.World
import UnixCodes.AcoHttpd.Accept
import UnixCodes.AcoHttpd.Server
import UnixCodes.AcoHttpd.Lifecycle
import UnixCodes.AcoHttpd.NonBlocking
import UnixCodes.KqueueServer.Drain
import UnixCodes.KqueueServer.NoBlockServer
import UnixCodes.KqueueServer.Ownership
import UnixCodes.Lib.Slots
import UnixCodes.PollServer.Model
import UnixCodes.PollServer.Table
import UnixCodes.PollServer.Reported
import UnixCodes.PollServer.Served
import UnixCodes.PollServer.Echo
import UnixCodes.Lib.LowestFree
import UnixCodes.SelectServer.Model
import UnixCodes.SelectServer.Bookkeeping
import UnixCodes.SelectServer.Tight
import UnixCodes.Lib.FdTable
import UnixCodes.DirCount.Tree
import UnixCodes.DirCount.Ducfd
import UnixCodes.DirCount.Duclinkfd
import UnixCodes.DirCount.Agree
import UnixCodes.BrassBank.Model
import UnixCodes.BrassBank.Ledger
import UnixCodes.SpliceCopyFile.Model
import UnixCodes.SpliceCopyFile.Complete
import UnixCodes.Lib.Precedence
import UnixCodes.ParentChildTell.Model
import UnixCodes.ParentChildTell.Order
import UnixCodes.SigMask.Model
import UnixCodes.SigMask.Early
import UnixCodes.SigMask.Released
import UnixCodes.Lib.Outcome
import UnixCodes.Lib.PointerTree
import UnixCodes.YieldFrom.Model
import UnixCodes.YieldFrom.Results
import UnixCodes.RBTree.Model
import UnixCodes.RBTree.Rotations
import UnixCodes.RBTree.WellFormed
import UnixCodes.RBTree.Preserved
import UnixCodes.RBTree.Inverse
import UnixCodes.HeapSort.Model
import UnixCodes.HeapSort.Swap
import UnixCodes.HeapSort.Exchange
import UnixCodes.HeapSort.Involution
import UnixCodes.HeapSort.Heapify
import UnixCodes.HeapSort.Terminates
import UnixCodes.DirCount.Descriptors
import UnixCodes.Duc.Model
import UnixCodes.Duc.Paths
import UnixCodes.ThreadPool.Representation
import UnixCodes.SpliceCopyFile.Prefix
import UnixCodes.KqueueServer.Client
import UnixCodes.TcpClient.Model
import UnixCodes.TcpClient.Stale
import UnixCodes.Lib.LoadStore
import UnixCodes.Libaco.Switch
import UnixCodes.Libaco.Memcpy
import UnixCodes.Lib.Align
import UnixCodes.Libaco.ShareStack
import UnixCodes.Libaco.Model
import UnixCodes.Libaco.Resume
import UnixCodes.Libaco.Sound
import UnixCodes.Lib.Coroutine
import UnixCodes.Libaco.Private
import UnixCodes.Libaco.Counters
import UnixCodes.Libaco.Handles
import UnixCodes.AcoHttpd.OnLibaco
import UnixCodes.AcoHttpd.Contexts
import UnixCodes.KqueueServer.BlockServer
import UnixCodes.Lib.Mutex
import UnixCodes.WriteRace.Model
import UnixCodes.WriteRace.Serial
import UnixCodes.WriteRace.Returns
import UnixCodes.PipeOversizeWrite.Model
import UnixCodes.PipeOversizeWrite.Ends
import UnixCodes.PipeOversizeWrite.Delivered
import UnixCodes.PipeOversizeWrite.Returns
import UnixCodes.AcoHttpd.Ledger
import UnixCodes.ParentChildTell.Ends
import UnixCodes.ThreadPool.Shutdown
import UnixCodes.NoBlockingTcpClient.Peer
import UnixCodes.NoBlockingTcpClient.Session
import UnixCodes.NoBlockingTcpClient.Answered
import UnixCodes.NoBlockingTcpClient.Echoed
