import XCache.Lib.Program
import XCache.Lib.Machine
import XCache.Lib.Progress
import XCache.Lib.Least
import XCache.Lib.Recency
import XCache.Lib.Decay
import XCache.Lib.Stack
import XCache.Lib.SignedOrder
import XCache.Lib.BigEndian
import XCache.Lib.Nodes
import XCache.Lib.Pool
import XCache.Lib.Stretch
import XCache.Lib.Regex
import XCache.Sqlite
import XCache.SqliteCache
import XCache.SqliteLru
import XCache.SqliteLfuda
import XCache.SqliteColumns
import XCache.SqliteBase
import XCache.SqliteStore
import XCache.Algo
import XCache.Eviction
import XCache.Invariant
import XCache.Course
import XCache.Init
import XCache.Asserting
import XCache.RedisCodec
import XCache.RedisLru
import XCache.MemoryCache
import XCache.MemoryLru
import XCache.MemoryLfuda
import XCache.MemoryInvariant
import XCache.Purger
import XCache.PurgerThreads
import XCache.PurgerWaking
import XCache.AsyncDeleter
import XCache.DeleterLifecycle
import XCache.Receiver
import XCache.RedisSubscriber
import XCache.RedisThreads
import XCache.RedisBase
import XCache.RedisAdapter
import XCache.Logger
import XCache.LoggerThreads
import XCache.Parser
import XCache.ConfigParser
import XCache.ConfigChecker
import XCache.Proofs.Table
import XCache.Proofs.Effects
import XCache.Proofs.Eviction
import XCache.Proofs.SqliteBase
import XCache.Proofs.SqliteStore
import XCache.Proofs.Course
import XCache.Proofs.Backends
import XCache.Proofs.Invariant
import XCache.Proofs.Init
import XCache.Proofs.LruSequence
import XCache.Proofs.LfudaAging
import XCache.Proofs.LfudaDecay
import XCache.Proofs.LfudaHistory
import XCache.Proofs.Recency
import XCache.Proofs.LruStack
import XCache.Proofs.Conservation
import XCache.Proofs.Faults
import XCache.Proofs.Victims
import XCache.Proofs.LfudaVictim
import XCache.Proofs.Backup
import XCache.Proofs.Crash
import XCache.Proofs.Restart
import XCache.Proofs.Session
import XCache.Proofs.RoundTrip
import XCache.Proofs.Growth
import XCache.Proofs.Update
import XCache.Proofs.Capacity
import XCache.Proofs.LfudaIdle
import XCache.Proofs.LfudaScan
import XCache.Proofs.LeastEvictions
import XCache.Proofs.Asserting
import XCache.Proofs.Tolerance
import XCache.Proofs.Codec
import XCache.Proofs.CodecImage
import XCache.Proofs.CodecOrder
import XCache.Proofs.RedisLru
import XCache.Proofs.MemoryCache
import XCache.Proofs.MemoryLru
import XCache.Proofs.MemoryLruUpdate
import XCache.Proofs.MemoryLfuda
import XCache.Proofs.MemoryCapacity
import XCache.Proofs.MemoryBackup
import XCache.Proofs.Mirror
import XCache.Proofs.LruMirror
import XCache.Proofs.LfudaMirror
import XCache.Proofs.LfudaOrders
import XCache.Proofs.Purger
import XCache.Proofs.PurgerStop
import XCache.Proofs.PurgerThreads
import XCache.Proofs.PurgerOrder
import XCache.Proofs.PurgerShutdown
import XCache.Proofs.PurgerDrain
import XCache.Proofs.PurgerWaking
import XCache.Proofs.AsyncDeleter
import XCache.Proofs.DeleterReports
import XCache.Proofs.DeleterLifecycle
import XCache.Proofs.DeleterShutdown
import XCache.Proofs.DeleterJobs
import XCache.Proofs.Receiver
import XCache.Proofs.RedisSubscriber
import XCache.Proofs.RedisThreads
import XCache.Proofs.RedisShutdown
import XCache.Proofs.RedisBase
import XCache.Proofs.RedisAdapter
import XCache.Proofs.RedisHealing
import XCache.Proofs.Logger
import XCache.Proofs.LoggerThreads
import XCache.Proofs.LoggerCalls
import XCache.Proofs.LoggerAlone
import XCache.Proofs.LoggerBatches
import XCache.Proofs.LoggerShutdown
import XCache.Proofs.Parser
import XCache.Proofs.ConfigParser
import XCache.Proofs.ConfigChecker
import XCache.Proofs.ConfigRules
