import Rcore.EasyFs.Layout
import Rcore.EasyFs.Bitmap

/-!
# The filesystem layout manager

`vfs.rs` allocates inodes and data blocks through `EasyFileSystem` (`alloc_inode`,
`alloc_data`, `dealloc_data`, `get_disk_inode_pos`), which is declared in the absent `efs.rs`.
It is modelled from the spec (§4.3, §6): the device holds the superblock, the inode bitmap, the
inode table, the data bitmap and the data area, in this order; an inode id is a bit of the inode
bitmap and a record of the inode table, and a data block id is the data area's start plus a bit
of the data bitmap. Every field is fixed when the filesystem is made; all mutable state is on
the device, in the bitmaps and the inode table.
-/

set_option autoImplicit false
set_option relaxedAutoImplicit false

namespace Rcore.EasyFs

/-- Modelled from the spec: `EasyFileSystem`, the two bitmaps and the first blocks of the inode
table and of the data area. -/
structure EasyFileSystem where
  inodeBitmap : Bitmap
  dataBitmap : Bitmap
  inodeAreaStartBlock : Nat
  dataAreaStartBlock : Nat
  deriving DecidableEq, Repr

namespace EasyFileSystem

/-- Modelled from the spec: the regions `EasyFileSystem::create` lays out on a device of
`totalBlocks` blocks with `inodeBitmapBlocks` blocks of inode bitmap. -/
def layout (totalBlocks inodeBitmapBlocks : Nat) : EasyFileSystem :=
  let inodeBitmap : Bitmap := ⟨1, inodeBitmapBlocks⟩
  let inodeAreaBlocks := (inodeBitmap.maximum * diskInodeSize + blockSz - 1) / blockSz
  let inodeTotalBlocks := inodeBitmapBlocks + inodeAreaBlocks
  let dataTotalBlocks := totalBlocks - 1 - inodeTotalBlocks
  let dataBitmapBlocks := (dataTotalBlocks + 4096) / 4097
  { inodeBitmap
    dataBitmap := ⟨1 + inodeTotalBlocks, dataBitmapBlocks⟩
    inodeAreaStartBlock := 1 + inodeBitmapBlocks
    dataAreaStartBlock := 1 + inodeTotalBlocks + dataBitmapBlocks }

/-- Modelled from the spec: `EasyFileSystem::get_disk_inode_pos`, the block and the offset of
the record of an inode in the inode table. -/
def getDiskInodePos (fs : EasyFileSystem) (inodeId : Nat) : Nat × Nat :=
  let inodesPerBlock := blockSz / diskInodeSize
  (fs.inodeAreaStartBlock + inodeId / inodesPerBlock, inodeId % inodesPerBlock * diskInodeSize)

/-- Modelled from the spec: `EasyFileSystem::alloc_inode`; an exhausted inode bitmap is fatal. -/
def allocInode (fs : EasyFileSystem) : BlockIo Nat := do
  match ← fs.inodeBitmap.alloc with
  | some inodeId => pure inodeId
  | none => BlockIo.panic unwrapNoneMsg

/-- Modelled from the spec: `EasyFileSystem::alloc_data`, the absolute id of a fresh data block;
an exhausted data bitmap is fatal. -/
def allocData (fs : EasyFileSystem) : BlockIo Nat := do
  match ← fs.dataBitmap.alloc with
  | some bit => pure (bit + fs.dataAreaStartBlock)
  | none => BlockIo.panic unwrapNoneMsg

/-- Modelled from the spec: `EasyFileSystem::dealloc_data`, the inverse translation and the
bitmap's `dealloc`. -/
def deallocData (fs : EasyFileSystem) (blockId : Nat) : BlockIo Unit :=
  fs.dataBitmap.dealloc (blockId - fs.dataAreaStartBlock)

/-- Modelled from the spec: the loop of `EasyFileSystem::create` that zeroes every block of the
device. -/
def clearBlocks : List Nat → BlockIo Unit
  | [] => pure ()
  | blockId :: rest => do
    BlockIo.modify blockId 0 blockSz fun _ ↦ pure (List.replicate blockSz 0, ())
    clearBlocks rest

/-- Modelled from the spec: the message of `assert_eq!(efs.alloc_inode(), 0)`. -/
def rootInodeMsg (inodeId : Nat) : String :=
  "assertion `left == right` failed\n  left: " ++ toString inodeId ++ "\n right: 0"

/-- Modelled from the spec: `EasyFileSystem::create` formats the device: every block zeroed,
inode 0 allocated and initialised as the empty root directory, and everything synced. The
superblock is not modelled: no modelled function reads it. -/
def create (totalBlocks inodeBitmapBlocks : Nat) : BlockIo EasyFileSystem := do
  let efs := layout totalBlocks inodeBitmapBlocks
  clearBlocks (List.range totalBlocks)
  let rootInodeId ← efs.allocInode
  if rootInodeId = 0 then
    let (rootInodeBlockId, rootInodeOffset) := efs.getDiskInodePos 0
    BlockIo.modify rootInodeBlockId rootInodeOffset diskInodeSize fun diskInode ↦
      pure (((DiskInode.ofBytes diskInode).initializeAs .directory).toBytes, ())
    BlockIo.syncAll
    pure efs
  else BlockIo.panic (rootInodeMsg rootInodeId)

end EasyFileSystem

end Rcore.EasyFs
