import SampleFs.Lib.Exec
import SampleFs.Lib.CInt
import SampleFs.Lib.CString
import SampleFs.Lib.Bytes
import SampleFs.Lib.PosixFile
import SampleFs.Lib.KernelScript
import SampleFs.Lib.TransferLoop
import SampleFs.Lib.Binary64
import SampleFs.Lib.Trace
import SampleFs.Lib.Chain
import SampleFs.Lib.Ring
import SampleFs.Lib.RangeTree
import SampleFs.Lib.Related
import SampleFs.Lib.Radix
import SampleFs.Lib.RoundRobin
import SampleFs.Lib.Orbit
import SampleFs.Lib.Logged
import SampleFs.Lib.Settles
import SampleFs.Lib.Simulation
import SampleFs.Lib.Interleaving
import SampleFs.Lib.Heap
import SampleFs.Lib.LinkedList
import SampleFs.Lib.Crc
import SampleFs.Lib.Absorb
import SampleFs.Lib.Words
import SampleFs.Base.JumpHash
import SampleFs.Base.JumpLoops
import SampleFs.Base.Hashmap
import SampleFs.Base.HashmapMemory
import SampleFs.Base.Utils
import SampleFs.Base.NetSock
import SampleFs.Base.NetSockEcho
import SampleFs.Base.Jenkins
import SampleFs.Base.CHash
import SampleFs.Base.Checksums
import SampleFs.Base.Murmur
import SampleFs.Metaserver.Dict
import SampleFs.Metaserver.DictMemory
import SampleFs.Metaserver.KvDb
import SampleFs.Metaserver.SchmeaMeta
import SampleFs.Metaserver.Shutdown
import SampleFs.Metaserver.Conf
import SampleFs.Chunkserver.Chunk
import SampleFs.Chunkserver.ChunkCache
import SampleFs.Chunkserver.ChunkServer
import SampleFs.Fuse.Super
import SampleFs.Fuse.PreadWrapper
import SampleFs.Fuse.Extents
import SampleFs.Fuse.ExtentReads
import SampleFs.Fuse.Inode
import SampleFs.Fuse.OpRead
import SampleFs.Fuse.Dcache
import SampleFs.Fuse.Lookup
import SampleFs.Fuse.DcacheThreads
import SampleFs.Fuse.OpReaddir
import SampleFs.Fuse.OpReadlink
import SampleFs.Fuse.OpGetattr
import SampleFs.Fuse.FuseMain
import SampleFs.Fuse.OutputWrites
import SampleFs.Proof.JumpHash.Disruption
import SampleFs.Proof.JumpHash.Agreement
import SampleFs.Proof.CHash.JenkinsPaths
import SampleFs.Proof.CHash.Signedness
import SampleFs.Proof.CHash.Checksums
import SampleFs.Proof.CHash.LocalChanges
import SampleFs.Proof.Utils.StringSplit
import SampleFs.Proof.Hashmap.Map
import SampleFs.Proof.Hashmap.Structure
import SampleFs.Proof.Hashmap.Bounds
import SampleFs.Proof.Hashmap.Teardown
import SampleFs.Proof.NetSock.Accounting
import SampleFs.Proof.NetSock.Echo
import SampleFs.Proof.Dict.Invariant
import SampleFs.Proof.Dict.Map
import SampleFs.Proof.Dict.Representation
import SampleFs.Proof.Dict.Disposal
import SampleFs.Proof.Dict.Memory
import SampleFs.Proof.Dict.MemoryRuns
import SampleFs.Proof.KvDb.Registry
import SampleFs.Proof.KvDb.Isolation
import SampleFs.Proof.KvDb.Lifecycle
import SampleFs.Proof.KvDb.MetaCache
import SampleFs.Proof.KvDb.Shutdown
import SampleFs.Proof.KvDb.Search
import SampleFs.Proof.KvDb.CacheLoad
import SampleFs.Proof.KvDb.Restart
import SampleFs.Proof.Conf.Search
import SampleFs.Proof.Chunk.RandomAccess
import SampleFs.Proof.Chunk.BatchSize
import SampleFs.Proof.Chunk.Restart
import SampleFs.Proof.Chunk.Transfers
import SampleFs.Proof.Chunk.WriteOutcomes
import SampleFs.Proof.Chunk.ReadOutcomes
import SampleFs.Proof.Chunk.CacheFill
import SampleFs.Proof.Chunk.CacheKeys
import SampleFs.Proof.Chunk.Logs
import SampleFs.Proof.Chunk.Store
import SampleFs.Proof.Fuse.ExtentTree
import SampleFs.Proof.Fuse.Layout
import SampleFs.Proof.Fuse.Holes
import SampleFs.Proof.Fuse.BlockMap
import SampleFs.Proof.Fuse.ReadFile
import SampleFs.Proof.Fuse.FirstRead
import SampleFs.Proof.Fuse.ReadProgress
import SampleFs.Proof.Fuse.InodeLocation
import SampleFs.Proof.Fuse.AlignedRead
import SampleFs.Proof.Fuse.ExtentDescent
import SampleFs.Proof.Fuse.ExtentBounds
import SampleFs.Proof.Fuse.CacheShape
import SampleFs.Proof.Fuse.CacheTree
import SampleFs.Proof.Fuse.PathWalk
import SampleFs.Proof.Fuse.CacheTransparent
import SampleFs.Proof.Fuse.Directory
import SampleFs.Proof.Fuse.PathResolution
import SampleFs.Proof.Fuse.Readdir
import SampleFs.Proof.Fuse.LookupSettles
import SampleFs.Proof.Fuse.DirectoryScan
import SampleFs.Proof.Fuse.PathTokens
import SampleFs.Proof.Fuse.Readlink
import SampleFs.Proof.Fuse.FileTree
import SampleFs.Proof.Fuse.Session
import SampleFs.Proof.Fuse.CacheGrowth
import SampleFs.Proof.Fuse.SequentialRead
import SampleFs.Proof.Fuse.Mount
import SampleFs.Proof.Fuse.CacheOwned
import SampleFs.Proof.Fuse.CacheThreads
import SampleFs.Proof.Fuse.CacheWrites
import SampleFs.Proof.Fuse.CacheRace
import SampleFs.Proof.Fuse.ThreadAlone
import SampleFs.Proof.Fuse.OutputBuffers
