import Backend.Lib.Run
import Backend.Lib.Tally
import Backend.Lib.Ring
import Backend.Lib.Fifo
import Backend.Lib.Chain
import Backend.Lib.Linked
import Backend.Lib.Map
import Backend.Lib.Forest
import Backend.Lib.Rearrange
import Backend.Lib.Compare
import Backend.Lib.BinaryHeap
import Backend.Lib.Merge
import Backend.Lib.SortUnique
import Backend.Lib.Precedence
import Backend.Lib.Logged
import Backend.Lib.Blocks
import Backend.Lib.Outline
import Backend.Word
import Backend.Queue.Model
import Backend.Queue.Steps
import Backend.Queue.Fifo
import Backend.Queue.Serial
import Backend.Queue.SessionPool
import Backend.ThreadPool.Model
import Backend.ThreadPool.Drain
import Backend.LockFree.Model
import Backend.LockFree.Multi
import Backend.LockFree.Single
import Backend.LockFree.Results
import Backend.LockFree.OneProducer
import Backend.LockFree.OneConsumer
import Backend.Lru.Model
import Backend.Lru.Structure
import Backend.Lru.Refine
import Backend.Lru.Slots
import Backend.Lru.Reuse
import Backend.Lru.Victim
import Backend.Skip.Model
import Backend.Skip.Layers
import Backend.Skip.Refine
import Backend.Skip.Reuse
import Backend.Hash.Model
import Backend.Hash.Lists
import Backend.Hash.Refine
import Backend.Hash.Reuse
import Backend.Reuse
import Backend.Capacity
import Backend.UnionSearch.Model
import Backend.UnionSearch.Classes
import Backend.UnionSearch.Rank
import Backend.UnionSearch.Reject
import Backend.Agree
import Backend.Loader.Model
import Backend.Loader.Grace
import Backend.WriteDisk.Model
import Backend.WriteDisk.Order
import Backend.WriteDisk.Stop
import Backend.WriteDisk.Bounds
import Backend.XServer.Model
import Backend.XServer.Slots
import Backend.XServer.FreeList
import Backend.XServer.Startup
import Backend.XServer.Stream
import Backend.Tcp.Model
import Backend.Tcp.Steps
import Backend.Tcp.Descriptors
import Backend.Tcp.Streams
import Backend.Tcp.Echo
import Backend.Tcp.Stop
import Backend.Tcp.Exchange
import Backend.Foxea.Session
import Backend.Foxea.Handler
import Backend.Foxea.Pipeline
import Backend.Foxea.Http
import Backend.Foxea.Answers
import Backend.Conf.Model
import Backend.Conf.Parse
import Backend.Conf.Heap
import Backend.Conf.Load
import Backend.Conf.Text
import Backend.Conf.Reload
import Backend.Foxea.Config
import Backend.Md5.Model
import Backend.Md5.Spec
import Backend.Md5.Stream
import Backend.Md5.Digest
import Backend.BitMap.Model
import Backend.BitMap.Words
import Backend.BitMap.Planes
import Backend.Sort.Memory
import Backend.Sort.Model
import Backend.Sort.Quick
import Backend.Sort.Heap
import Backend.Sort.Merge
import Backend.Sort.Ties
import Backend.Sort.Trace
import Backend.Sort.Offsets
import Backend.Sort.Enhanced
import Backend.Sort.Bytes
import Backend.Sort.Walls
import Backend.Sort.Pending
import Backend.Sort.Insertion
import Backend.Sort.Agree
import Backend.Sql.Model
import Backend.Sql.Gather
import Backend.Sql.Where
import Backend.Sql.Statements
