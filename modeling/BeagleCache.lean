import BeagleCache.Outcome
import BeagleCache.Bytes
import BeagleCache.Ring
import BeagleCache.Tiling
import BeagleCache.Collapse
import BeagleCache.Rabin
import BeagleCache.RabinScan
import BeagleCache.Mrc
import BeagleCache.MrcLevels
import BeagleCache.MrcBlock
import BeagleCache.MrcTables
import BeagleCache.MrcTree
import BeagleCache.Candidates
import BeagleCache.Resolve
import BeagleCache.Merge
import BeagleCache.Selection
import BeagleCache.ChunkCache
import BeagleCache.TempCache
import BeagleCache.Sha1
import BeagleCache.SendBlock
import BeagleCache.Protocol
import BeagleCache.Reassemble
import BeagleCache.NameDelivery
import BeagleCache.TreeCodec
import BeagleCache.TreeInit
import BeagleCache.TreeRoundTrip
import BeagleCache.ChunkChannel
import BeagleCache.UserData
import BeagleCache.Reconstruct
import BeagleCache.Framing
import BeagleCache.ControlChannel
import BeagleCache.ControlFraming
import BeagleCache.ControlRobust
import BeagleCache.UserRun
import BeagleCache.MessageSize
import BeagleCache.Transition
import BeagleCache.WriteQueue
import BeagleCache.DiskCache
import BeagleCache.CacheConservation
import BeagleCache.Flow
import BeagleCache.BlockedCount
import BeagleCache.ChunkRequests
import BeagleCache.RequestAccounts
import BeagleCache.Delivery
import BeagleCache.Wrapping
import BeagleCache.FlowControl
import BeagleCache.SourceAccounts
import BeagleCache.FlowAccounts
import BeagleCache.AckWrap
import BeagleCache.Ownership
import BeagleCache.Genuine
import BeagleCache.Path
import BeagleCache.Transparency
import BeagleCache.HintTables
import BeagleCache.MemoryCache
import BeagleCache.Peers
import BeagleCache.DiskPut
import BeagleCache.LateResponse
import BeagleCache.CacheFraming
import BeagleCache.HttpLex
import BeagleCache.HttpTime
import BeagleCache.HttpHeaders
import BeagleCache.HttpParse
import BeagleCache.StoredHeader
import BeagleCache.HttpTokens
import BeagleCache.StoredLines
import BeagleCache.StoredMetadata
import BeagleCache.Stripe
import BeagleCache.LogAllocator
import BeagleCache.DiskBatches
import BeagleCache.HotObjects
import BeagleCache.HotLocks
import BeagleCache.LogStore
import BeagleCache.Coherence
import BeagleCache.IndexSound
import BeagleCache.FurtherBlocks
import BeagleCache.Turns
import BeagleCache.LockTable
import BeagleCache.ReadPins
import BeagleCache.ReadLocks
import BeagleCache.ChunkLines
import BeagleCache.EntityReads
import BeagleCache.IndexLookup
import BeagleCache.MergedReads
import BeagleCache.BatchWheel
import BeagleCache.Downloads
import BeagleCache.PendingWrites
import BeagleCache.BatchedResponses
import BeagleCache.DirtyObjects
import BeagleCache.SlotReads
import BeagleCache.SlotLocks
import BeagleCache.IndexFields
import BeagleCache.IndexFile
import BeagleCache.Worklist
import BeagleCache.BatchForming
import BeagleCache.ReadArming
import BeagleCache.TreeCheck
import BeagleCache.RoundRobin
import BeagleCache.NameSchedule
import BeagleCache.DnsCache
import BeagleCache.DnsRequests
import BeagleCache.Hits
import BeagleCache.RightObject
import BeagleCache.CacheOnly
import BeagleCache.ClientBlocking
import BeagleCache.Redirect
import BeagleCache.LoadShedding
import BeagleCache.QueueIndices
import BeagleCache.ReceivedTree
import BeagleCache.TreeLookup
import BeagleCache.ChunkNameList
import BeagleCache.DownloadPaths
import BeagleCache.Freshness
import BeagleCache.DoublyLinked
import BeagleCache.LinkedList
import BeagleCache.LinkedSort
import BeagleCache.ListRuns
import BeagleCache.BodyCopy
import BeagleCache.BinaryPolynomial
import BeagleCache.RabinResidue
import BeagleCache.Chains
import BeagleCache.Dictionary
import BeagleCache.HashTable
import BeagleCache.HashTableItr
import BeagleCache.TableStore
import BeagleCache.TempTable
import BeagleCache.RequestTable
import BeagleCache.CursorTable
import BeagleCache.HashTab
import BeagleCache.HashTabRuns
import BeagleCache.ConnectionPool
import BeagleCache.ConnectionBase
import BeagleCache.ConnectionRuns
import BeagleCache.Recycle
import BeagleCache.HashTabSpace
