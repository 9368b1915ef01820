import FuseUfs.Lib.Prog
import FuseUfs.Lib.BitMap
import FuseUfs.Lib.Runs
import FuseUfs.Lib.CappedRuns
import FuseUfs.Lib.Search
import FuseUfs.Geometry
import FuseUfs.Tables
import FuseUfs.Disk
import FuseUfs.CylinderGroup
import FuseUfs.Alloc
import FuseUfs.ClusterSums
import FuseUfs.AllocInvariant
import FuseUfs.AllocRuns
import FuseUfs.AllocSpace
import FuseUfs.GroupSearch
import FuseUfs.Lib.Bytes
import FuseUfs.Vnode
import FuseUfs.BlockCount
import FuseUfs.BlockMap
import FuseUfs.Truncate
import FuseUfs.FileIO
import FuseUfs.FileView
import FuseUfs.BmapLookup
import FuseUfs.ReadCorrect
import FuseUfs.Lib.Ledger
import FuseUfs.Ownership
import FuseUfs.SetBlock
import FuseUfs.Flush
import FuseUfs.WriteLoop
import FuseUfs.WriteCorrect
import FuseUfs.Fragments
import FuseUfs.TruncateCorrect
import FuseUfs.TruncateFragments
import FuseUfs.KillFile
import FuseUfs.MapUpdate
import FuseUfs.InodeAlloc
import FuseUfs.GroupWrites
import FuseUfs.InodeAllocRuns
import FuseUfs.InodeInit
import FuseUfs.Effects
import FuseUfs.Mount
import FuseUfs.VnodePut
import FuseUfs.Lib.Chains
import FuseUfs.VnodeTable
import FuseUfs.Directory
import FuseUfs.DirWalk
import FuseUfs.Lib.Tiling
import FuseUfs.DirImage
import FuseUfs.DirScan
import FuseUfs.BlockSizes
import FuseUfs.DirHold
import FuseUfs.DirUnlink
import FuseUfs.DirLink
import FuseUfs.DirAppend
import FuseUfs.DirOwn
import FuseUfs.Path
import FuseUfs.Lookup
import FuseUfs.PathSplit
import FuseUfs.Ops
import FuseUfs.DirReaders
import FuseUfs.DirTable
import FuseUfs.DirTree
import FuseUfs.Callbacks
import FuseUfs.Attributes
import FuseUfs.OpsEffects
import FuseUfs.Sizes
import FuseUfs.Refs
import FuseUfs.Leaks
import FuseUfs.Balance
import FuseUfs.Handles
import FuseUfs.ReadOnly
import FuseUfs.MountOptions
import FuseUfs.Space
