import Training.Lib.Machine
import Training.Lib.Mutex
import Training.Lib.Fallible
import Training.Lib.Words
import Training.Lib.Fifo
import Training.Lib.Reads
import Training.Udp.RingBuffer
import Training.Udp.RingBufferTheorems
import Training.Udp.RingBufferRefinement
import Training.Udp.SharedRing
import Training.Udp.SharedRingTheorems
import Training.Udp.Protocol
import Training.Udp.ListTheorems
import Training.Udp.ProtocolTheorems
import Training.Udp.Peer
import Training.Udp.Flushers
import Training.Udp.Wrap
import Training.Udp.SendWindow
import Training.Udp.SenderTheorems
import Training.Udp.RecvWindow
import Training.Udp.ReceiverTheorems
import Training.Udp.StreamTheorems
import Training.Udp.FlushersTheorems
import Training.Udp.Link
import Training.Udp.LinkTheorems
import Training.Udp.Timer
import Training.Udp.TimerTheorems
import Training.Udp.Workers
import Training.Udp.WorkersTheorems
import Training.Udp.Wire
import Training.Udp.WireTheorems
import Training.Udp.WireRefinement
import Training.Rudp.Protocol
import Training.Rudp.Process
import Training.Rudp.ProtocolTheorems
import Training.Rudp.Window
import Training.Rudp.WindowTheorems
import Training.Rudp.LinkTheorems
import Training.Rudp.SessionTheorems
import Training.Rpc.Frame
import Training.Rpc.Response
import Training.Rpc.Server
import Training.Rpc.Receiver
import Training.Rpc.ServerTheorems
import Training.Rpc.ReassemblyTheorems
import Training.Rpc.BoundsTheorems
import Training.Rpc.Blocking
import Training.Rpc.LanguageTheorems
import Training.Rpc.ResponseTheorems
import Training.ThreadPool.PoolTheorems
import Training.ElementPool.PoolTheorems
import Training.CThreadPool.StrandingTheorems
import Training.CThreadPool.TableTheorems
import Training.Arena.PoolTheorems
import Training.IdGenerator.GeneratorTheorems
import Training.CasCounter.CounterTheorems
import Training.MutexQueue.QueueTheorems
import Training.Lru.CacheTheorems
import Training.Lfu.RefinementTheorems
import Training.Skip.OperationsTheorems
import Training.PubSub.BrokerTheorems
import Training.LockfreeQueue.QueueTheorems
import Training.LockfreeQueue.ReclamationTheorems
import Training.Sort.SortTheorems
import Training.MinWindow.SubstringTheorems
import Training.Serial.CmdTheorems
import Training.Epoll.ClientPoolTheorems
import Training.Rpc.ClientPoolTheorems
import Training.Lib.Ledger
import Training.Arena.LargeTheorems
import Training.Udp.DrainTheorems
import Training.Udp.AckTheorems
import Training.Lib.NullLists
import Training.MemoryPool.LimitTheorems
import Training.MemoryPool.ChunkTheorems
import Training.MemoryPool.ExtentTheorems
import Training.ListSort.SortTheorems
import Training.HeapSort.SortTheorems
import Training.TopK.FrequenciesTheorems
import Training.NonRepeat.SubstringTheorems
import Training.MaxSubArray.SubArrayTheorems
import Training.SumOfTwo.TwoSumTheorems
import Training.SumOfThree.ThreeSumTheorems
import Training.RotateArray.SearchTheorems
import Training.RotateArray.MinMaxTheorems
import Training.TreeLevels.TraversalTheorems
import Training.TreeDiameter.Diameter
import Training.TreeDistance.DistanceTheorems
import Training.CycleList.Check
import Training.MinimumStack.AgreementTheorems
import Training.QueueStack.StackTheorems
import Training.Bloom.FilterTheorems
import Training.IncreasingDigits.DigitsTheorems
import Training.ValidParentheses.CheckerTheorems
import Training.HttpServer.RequestTheorems
import Training.HttpServer.DecodeTheorems
import Training.RamDisk.TransferTheorems
import Training.IcmpPing.ChecksumTheorems
import Training.Rudp.RingTheorems
import Training.HashMap.CallsTheorems
import Training.RbTree.CachedTheorems
import Training.RbTree.TestMainTheorems
