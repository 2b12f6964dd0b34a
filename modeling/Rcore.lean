import Rcore.Codec
import Rcore.EasyFs.Block
import Rcore.EasyFs.BlockCache
import Rcore.EasyFs.BlockCacheInvariant
import Rcore.EasyFs.BlockCacheRefinement
import Rcore.EasyFs.BlockIo
import Rcore.EasyFs.Handles
import Rcore.EasyFs.Bitmap
import Rcore.EasyFs.Layout
import Rcore.EasyFs.InodeIndex
import Rcore.EasyFs.InodeGrow
import Rcore.EasyFs.InodeClear
import Rcore.EasyFs.InodeData
import Rcore.EasyFs.Efs
import Rcore.EasyFs.Vfs
import Rcore.EasyFs.CachedOps
import Rcore.EasyFs.Allocation
import Rcore.EasyFs.InodeTable
import Rcore.EasyFs.Directory
import Rcore.EasyFs.InodeLimits
import Rcore.EasyFs.InodeOps
import Rcore.EasyFs.DirectoryOps
import Rcore.EasyFs.Format
import Rcore.EasyFs.Reachable
import Rcore.EasyFs.Accounting
import Rcore.EasyFs.Links
import Rcore.EasyFs.DirectoryModel
import Rcore.EasyFs.Durability
import Rcore.EasyFs.CachedRuns
import Rcore.Os.Address
import Rcore.Os.PageTable
import Rcore.Os.UserBuffer
import Rcore.Os.Utf8
