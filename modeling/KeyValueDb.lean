import KeyValueDb.Lib.Proc
import KeyValueDb.Lib.Bytes
import KeyValueDb.Lib.Cbor
import KeyValueDb.Lib.Probing
import KeyValueDb.Lib.Hierarchy
import KeyValueDb.Lib.Segments
import KeyValueDb.Lib.Successors
import KeyValueDb.BlobDb.Layout
import KeyValueDb.BlobDb.SlotIndex
import KeyValueDb.BlobDb.Store
import KeyValueDb.BlobDb.Bucket
import KeyValueDb.BlobDb.Compaction
import KeyValueDb.BlobDb.Master
import KeyValueDb.BlobDb.Segment
import KeyValueDb.BlobDb.Ops
import KeyValueDb.BlobDb.Mount
import KeyValueDb.BlobDb.System
import KeyValueDb.BlobDb.Frame
import KeyValueDb.BlobDb.Keeps
import KeyValueDb.BlobDb.Neutral
import KeyValueDb.BlobDb.Runs
import KeyValueDb.BlobDb.Scratch
import KeyValueDb.BlobDb.Seal
import KeyValueDb.BlobDb.Wedge
import KeyValueDb.BlobDb.MasterLog
import KeyValueDb.BlobDb.Masters
import KeyValueDb.BlobDb.Adopt
import KeyValueDb.BlobDb.Sessions
import KeyValueDb.BlobDb.Ceiling
import KeyValueDb.BlobDb.BucketLog
import KeyValueDb.BlobDb.Lookup
import KeyValueDb.BlobDb.InPlace
import KeyValueDb.BlobDb.Sweep
import KeyValueDb.BlobDb.Commits
import KeyValueDb.BlobDb.Picks
import KeyValueDb.BlobDb.Iterate
import KeyValueDb.BlobDb.Iteration
import KeyValueDb.BlobDb.Inspect
import KeyValueDb.BlobDb.IndexTable
import KeyValueDb.BlobDb.IndexCells
import KeyValueDb.BlobDb.IndexTruth
import KeyValueDb.BlobDb.IndexRuns
import KeyValueDb.BlobDb.Calm
import KeyValueDb.BlobDb.Refusal
import KeyValueDb.BlobDb.Rebind
import KeyValueDb.BlobDb.Staging
import KeyValueDb.BlobDb.Nested
import KeyValueDb.BlobDb.SweepEnds
import KeyValueDb.BlobDb.Contents
import KeyValueDb.BlobDb.Recovered
import KeyValueDb.BlobDb.Serving
import KeyValueDb.BlobDb.Answers
import KeyValueDb.BlobDb.Durability
import KeyValueDb.BlobDb.Remount
import KeyValueDb.BlobDb.Survival
import KeyValueDb.Containers.BlobStore
import KeyValueDb.Containers.StoreCalls
import KeyValueDb.Containers.Logring
import KeyValueDb.Containers.LogringChain
import KeyValueDb.Containers.LogringSteps
import KeyValueDb.Containers.LogringSpecs
import KeyValueDb.Containers.LogringOps
import KeyValueDb.Containers.LogringReads
import KeyValueDb.Containers.LogringRuns
import KeyValueDb.Containers.LogringHistory
import KeyValueDb.Containers.LogringRetention
import KeyValueDb.Containers.LogringCursors
import KeyValueDb.Containers.LogringDestroy
import KeyValueDb.Containers.Kvhash
import KeyValueDb.Containers.KvhashCalls
import KeyValueDb.Containers.KvhashImage
import KeyValueDb.Containers.KvhashReads
import KeyValueDb.Containers.KvhashSearch
import KeyValueDb.Containers.KvhashTable
import KeyValueDb.Containers.KvhashWrites
import KeyValueDb.Containers.KvhashSet
import KeyValueDb.Containers.KvhashOps
import KeyValueDb.Containers.KvhashWalk
import KeyValueDb.Containers.KvhashCreate
import KeyValueDb.Containers.KvhashGeometry
import KeyValueDb.Containers.KvhashContents
import KeyValueDb.Containers.KvhashRuns
import KeyValueDb.Containers.KvhashUndo
import KeyValueDb.Containers.KvhashFaults
import KeyValueDb.Containers.KvhashRounds
import KeyValueDb.Containers.KvhashDestroy
import KeyValueDb.Containers.KvhashTeardown
import KeyValueDb.Containers.KvhashUnfailing
import KeyValueDb.Containers.KvhashShared
import KeyValueDb.Containers.MapStore
import KeyValueDb.Containers.MapPower
import KeyValueDb.Registry.Rootreg
import KeyValueDb.Registry.RootregRuns
import KeyValueDb.Registry.RootregUnfailing
import KeyValueDb.Interfaces.Kvdb
import KeyValueDb.Interfaces.KvdbInstances
import KeyValueDb.Interfaces.KvdbRuns
import KeyValueDb.Interfaces.KvdbHas
import KeyValueDb.Blobfs.Paths
import KeyValueDb.Blobfs.Blobfs
import KeyValueDb.Blobfs.Backings
import KeyValueDb.Blobfs.Resolution
import KeyValueDb.Blobfs.Leftovers
import KeyValueDb.Blobfs.Files
import KeyValueDb.Blobfs.Meanings
import KeyValueDb.Blobfs.Tables
import KeyValueDb.Persondb.PersonCbor
import KeyValueDb.Persondb.Persondb
import KeyValueDb.Persondb.Tables
import KeyValueDb.Persondb.Index
import KeyValueDb.Persondb.Redo
import KeyValueDb.Persondb.Superblock
import KeyValueDb.Persondb.SuperblockCbor
import KeyValueDb.Persondb.CborTraces
import KeyValueDb.Persondb.RecordCodec
import KeyValueDb.Persondb.Lifecycle
import KeyValueDb.Persondb.Directory
import KeyValueDb.Persondb.Teardown
import KeyValueDb.Persondb.Upgrade
import KeyValueDb.Blobfs.Places
import KeyValueDb.Blobfs.Calls
import KeyValueDb.Blobfs.Renames
import KeyValueDb.Blobfs.Mounts
import KeyValueDb.Blobfs.TreeRuns
