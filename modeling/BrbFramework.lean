import BrbFramework.Lib.Handler
import BrbFramework.Lib.Runs
import BrbFramework.Lib.Agenda
import BrbFramework.Lib.Along
import BrbFramework.Lib.Linked
import BrbFramework.Lib.Chains
import BrbFramework.Lib.Machine
import BrbFramework.Lib.LittleEndian
import BrbFramework.Lib.Feistel
import BrbFramework.Lib.Trie
import BrbFramework.Lib.Incumbent
import BrbFramework.Lib.MergeSort
import BrbFramework.Data.MemSlot
import BrbFramework.Data.DLinkedList
import BrbFramework.Data.DLinkedListSort
import BrbFramework.Data.MemArena
import BrbFramework.Data.MemArenaLocks
import BrbFramework.Data.DynArray
import BrbFramework.Data.MemSlotLinked
import BrbFramework.Data.MemSlotLRU
import BrbFramework.Data.SlotQueueMapped
import BrbFramework.Data.SlotQueueGrants
import BrbFramework.Data.SlotQueueLent
import BrbFramework.Data.MemBuffer
import BrbFramework.Data.MemBufferContent
import BrbFramework.Data.MemBufferMapped
import BrbFramework.Data.MemStream
import BrbFramework.Data.MemStreamContent
import BrbFramework.Data.MemStreamDeref
import BrbFramework.Data.StringArray
import BrbFramework.Data.StringArrayExplode
import BrbFramework.Data.StringArrayImplode
import BrbFramework.Data.StringArrayWalk
import BrbFramework.Data.StringArrayDelimM
import BrbFramework.Data.StringArrayUnique
import BrbFramework.Data.StringArrayTables
import BrbFramework.Data.SpeedRegEx
import BrbFramework.Data.JSONSlashes
import BrbFramework.Data.UrlDecode
import BrbFramework.Data.KeyValue
import BrbFramework.Data.KeyValueTemplate
import BrbFramework.Data.KeyValueRow
import BrbFramework.Data.MappedInOrder
import BrbFramework.Data.MappedCompleted
import BrbFramework.Data.MetaData
import BrbFramework.Data.MetaDataUnpack
import BrbFramework.Data.DynBitMap
import BrbFramework.Data.DynBitMapRuns
import BrbFramework.Data.DynBitMapMeta
import BrbFramework.Data.MappedMeta
import BrbFramework.Data.MappedBlocks
import BrbFramework.Data.MappedCalls
import BrbFramework.Data.MappedRanges
import BrbFramework.Data.MappedValid
import BrbFramework.Data.RadixTree
import BrbFramework.Data.RadixTreeBits
import BrbFramework.Data.RadixTreeShape
import BrbFramework.Data.RadixTreeSearch
import BrbFramework.Data.RadixTreeUpdate
import BrbFramework.Data.RadixTreeRuns
import BrbFramework.Data.IPv4Table
import BrbFramework.Data.HashTable
import BrbFramework.Data.AssocArray
import BrbFramework.Data.AssocArrayDestroy
import BrbFramework.Data.HashTableV2
import BrbFramework.Data.HashTableV2Keys
import BrbFramework.Data.HashFunctions
import BrbFramework.Data.MemBufferCopies
import BrbFramework.Crypto.Rc4
import BrbFramework.Crypto.Md5
import BrbFramework.Crypto.Md5Pieces
import BrbFramework.Crypto.Base64
import BrbFramework.Crypto.Base64Into
import BrbFramework.Crypto.Blowfish
import BrbFramework.Data.MemBufferCrypt
import BrbFramework.Event.Transform
import BrbFramework.Event.TransformRecords
import BrbFramework.AioPQ.Pool
import BrbFramework.AioPQ.Acts
import BrbFramework.AioPQ.Paths
import BrbFramework.AioPQ.Order
import BrbFramework.AioPQ.Attachment
import BrbFramework.AioPQ.Moves
import BrbFramework.AioPQ.Statistics
import BrbFramework.AioPQ.Cancellation
import BrbFramework.FileMapped.Map
import BrbFramework.FileMapped.Calls
import BrbFramework.FileMapped.Loop
import BrbFramework.FileMapped.Acts
import BrbFramework.FileMapped.Formed
import BrbFramework.FileMapped.Paths
import BrbFramework.FileMapped.Handlers
import BrbFramework.FileMapped.Updates
import BrbFramework.FileMapped.Holds
import BrbFramework.Unix.Frame
import BrbFramework.Unix.Client
import BrbFramework.Unix.Acts
import BrbFramework.Unix.Paths
import BrbFramework.Unix.Raw
import BrbFramework.Unix.Lifecycle
import BrbFramework.Unix.Stream
import BrbFramework.Unix.Reader
import BrbFramework.Tcp.SelfSync
import BrbFramework.Tcp.WriteQueue
import BrbFramework.Tcp.WriteOrder
import BrbFramework.Tcp.SslConn
import BrbFramework.Tcp.SslProgress
import BrbFramework.Tcp.ReadMethods
import BrbFramework.Tcp.Vectored
import BrbFramework.Comm.ClientPool
import BrbFramework.Comm.LeastLoad
import BrbFramework.Ipc.WriteQueue
import BrbFramework.Dns.Rfc1035
import BrbFramework.Dns.Resolver
import BrbFramework.Dns.QueryRoundTrip
import BrbFramework.Dns.Bookkeeping
import BrbFramework.Dns.Matching
import BrbFramework.Dns.TimerPass
import BrbFramework.Dns.PartialAnswers
import BrbFramework.Dns.ReplyBounds
import BrbFramework.Event.TimedJobs
import BrbFramework.Event.TimerIdentity
import BrbFramework.Event.Timeouts
import BrbFramework.Event.TimeoutPairing
import BrbFramework.Event.ShadowState
import BrbFramework.Event.JobDispatch
import BrbFramework.Event.DeferLists
import BrbFramework.Event.DeferPass
import BrbFramework.Icmp.Requests
import BrbFramework.Thread.Pool
import BrbFramework.Thread.JobLifecycle
import BrbFramework.Thread.WakeUp
import BrbFramework.ThreadAio.Queue
import BrbFramework.ThreadAio.Opcodes
import BrbFramework.ThreadAio.Failures
import BrbFramework.ThreadAio.Base
import BrbFramework.ThreadAio.Accounting
import BrbFramework.ThreadAio.Statistics
import BrbFramework.Data.FindSubStr
import BrbFramework.Data.CpfCnpj
import BrbFramework.Icmp.CheckSum
import BrbFramework.Data.DynBitMapValid
import BrbFramework.Data.JsonConfig
import BrbFramework.Data.SafeString
