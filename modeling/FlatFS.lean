import FlatFS.Lib.Bitmap
import FlatFS.Lib.Run
import FlatFS.Lib.Word
import FlatFS.Lib.DList
import FlatFS.Lib.SlotStore
import FlatFS.Lib.Acyclic
import FlatFS.Lib.Rank
import FlatFS.Lib.Horner
import FlatFS.Lib.Overlay
import FlatFS.Lib.Mix
import FlatFS.Lib.WriteBack
import FlatFS.Lib.Paths
import FlatFS.Lib.Owners
import FlatFS.Defs
import FlatFS.FileTable
import FlatFS.NameHash
import FlatFS.Layout
import FlatFS.DirTree
import FlatFS.DirTreeRun
import FlatFS.DirTreeIds
import FlatFS.CuckooHash
import FlatFS.CuckooPath
import FlatFS.CuckooResize
import FlatFS.CuckooMap
import FlatFS.CuckooTable
import FlatFS.CuckooCounters
import FlatFS.Hash
import FlatFS.Inode
import FlatFS.Blocks
import FlatFS.Discard
import FlatFS.DiscardRun
import FlatFS.DiscardLeak
import FlatFS.DiscardHeader
import FlatFS.Mknod
import FlatFS.Lookup
import FlatFS.CreateLookup
import FlatFS.GoneNames
import FlatFS.ReadDir
import FlatFS.ReadDirRun
import FlatFS.ReadDirNames
import FlatFS.Objects
import FlatFS.BigDirs
import FlatFS.ObjectInv
import FlatFS.BucketLock
import FlatFS.ObjectRun
import FlatFS.BucketBounds
import FlatFS.DiscardHandler
import FlatFS.LinkCounts
import FlatFS.LinkRun
import FlatFS.DirLookup
import FlatFS.CreatedNames
import FlatFS.FileData
import FlatFS.FileSizes
import FlatFS.FileRefine
import FlatFS.Reload
import FlatFS.BucketPage
import FlatFS.PageNames
import FlatFS.BucketNames
import FlatFS.DirKids
import FlatFS.DirPaths
import FlatFS.DirTables
import FlatFS.DirResources
import FlatFS.SlotOwners
import FlatFS.Listing
import FlatFS.BigSlots
import FlatFS.Observed
