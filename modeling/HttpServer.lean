import HttpServer.Lib.Lts
import HttpServer.Lib.Incremental
import HttpServer.Lib.Chain
import HttpServer.Lib.BitOrder
import HttpServer.Lib.Tally
import HttpServer.Lib.RwLock
import HttpServer.Lib.ShortestPrefix
import HttpServer.Lib.StdList
import HttpServer.Lib.Ring
import HttpServer.Lib.Execution
import HttpServer.Lib.Calls
import HttpServer.Lib.Keyed
import HttpServer.Lib.StdString
import HttpServer.Lib.StdSet
import HttpServer.Lib.Stream
import HttpServer.Lib.EdgeTriggered
import HttpServer.Lib.Histories
import HttpServer.Lib.Multimap
import HttpServer.BufferStall
import HttpServer.BufferScan
import HttpServer.BufferCopyRuns
import HttpServer.BufferAlike
import HttpServer.ParserStable
import HttpServer.ParserWord
import HttpServer.ParserThrows
import HttpServer.ParserLength
import HttpServer.LockFreeListSafe
import HttpServer.LockFreeListLin
import HttpServer.LockFreeListClean
import HttpServer.ConnectionRuns
import HttpServer.ConnectionRefsRuns
import HttpServer.FileCachePins
import HttpServer.FileLoad
import HttpServer.FileCacheEvict
import HttpServer.FileCacheIter
import HttpServer.FileCacheUnpinned
import HttpServer.FileCacheOutcome
import HttpServer.FileCacheLock
import HttpServer.FileCacheCounts
import HttpServer.FileCacheFirst
import HttpServer.HttpConnection
import HttpServer.HttpRequests
import HttpServer.HttpClient
import HttpServer.HashTableMap
import HttpServer.HashTableGrowth
import HttpServer.ThreadPool
import HttpServer.ThreadPoolStop
import HttpServer.ServiceManager
import HttpServer.SpinlockMCS
import HttpServer.Barrier
import HttpServer.Descriptor
import HttpServer.RequestStatsWindow
import HttpServer.RequestText
import HttpServer.KVConnection
import HttpServer.ClientResponses
import HttpServer.HashTablePhantom
import HttpServer.HashTableCount
import HttpServer.Acceptor
import HttpServer.ConnectionConnectRuns
import HttpServer.ListSetRuns
import HttpServer.CircularBuffer
import HttpServer.ThreadPoolCallbacks
import HttpServer.ParamMap
import HttpServer.HashTableOrder
import HttpServer.HazardPointers
import HttpServer.ReadDone
import HttpServer.ConnectionReadRuns
import HttpServer.HttpExchange
import HttpServer.HashTableLin
import HttpServer.LockFreeListHistory
import HttpServer.AcceptorClients
import HttpServer.IOManager
import HttpServer.KVService
import HttpServer.Notification
import HttpServer.ClientSend
