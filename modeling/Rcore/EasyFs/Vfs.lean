import Rcore.EasyFs.Efs

/-!
# The virtual filesystem layer

`vfs.rs`: an `Inode` handle is the address of a disk inode, the block of the inode table that
holds it and the offset in that block. Every operation is a `BlockIo` computation over the
filesystem `fs`, whose allocation lock the code takes for the whole operation; the model runs
one operation at a time, so the lock is the sequencing of the computations. The closures the
code hands to `read_disk_inode` and `modify_disk_inode` are computations of their own: they
reach other blocks (directory entries, index blocks, the bitmaps) while the block of the disk
inode is held.

Names are byte strings, the UTF-8 bytes of the `&str` the code compares. A directory is the
array of `DirEntry` records in its first `size / DIRENT_SZ` slots; `create` and `link` append a
record, `unlink` copies the last record over the first one with the name and shrinks the
directory by one record.
-/

set_option autoImplicit false
set_option relaxedAutoImplicit false

namespace Rcore.EasyFs

/-- `Inode`: the address of a disk inode. The shared filesystem and the device are the `fs`
argument of every operation and the block store it runs on. -/
structure Inode where
  blockId : Nat
  blockOffset : Nat
  deriving DecidableEq, Repr

/-- The message of `assert!(disk_inode.is_dir())` in `find_inode_id`. -/
def findIsDirMsg : String := "assertion failed: disk_inode.is_dir()"

/-- The message of `assert!(root_inode.is_dir())` in the closures of `create`, `link` and
`unlink`. -/
def rootIsDirMsg : String := "assertion failed: root_inode.is_dir()"

/-- The message of the `assert_eq!(read_at(..), DIRENT_SZ)` checks. -/
def direntSzMsg (left : Nat) : String :=
  "assertion `left == right` failed\n  left: " ++ toString left ++ "\n right: 32"

/-- The message of the assertion of `Inode::clear`. -/
def clearMsg : String :=
  "assertion failed: data_blocks_dealloc.len() == DiskInode::total_blocks(size) as usize"

namespace Inode

variable (fs : EasyFileSystem)

/-- `Inode::new`. -/
def new (blockId blockOffset : Nat) : Inode := ⟨blockId, blockOffset⟩

/-- The handle of an inode id: `Inode::new` at `fs.get_disk_inode_pos(inode_id)`. -/
def ofInodeId (inodeId : Nat) : Inode :=
  new (fs.getDiskInodePos inodeId).1 (fs.getDiskInodePos inodeId).2

/-- `Inode::read_disk_inode`. -/
def readDiskInode {V : Type} (self : Inode) (f : DiskInode → BlockIo V) : BlockIo V :=
  BlockIo.read self.blockId self.blockOffset diskInodeSize fun bytes ↦ f (DiskInode.ofBytes bytes)

/-- `Inode::modify_disk_inode`: the closure returns the new record with its result. -/
def modifyDiskInode {V : Type} (self : Inode) (f : DiskInode → BlockIo (DiskInode × V)) :
    BlockIo V :=
  BlockIo.modify self.blockId self.blockOffset diskInodeSize fun bytes ↦ do
    let (diskInode, v) ← f (DiskInode.ofBytes bytes)
    pure (diskInode.toBytes, v)

/-- The loop of `Inode::find_inode_id` over the records `i` of a directory, reading each into
the one `dirent` buffer. -/
def findInodeIdLoop (name : List UInt8) (diskInode : DiskInode) :
    DirEntry → List Nat → BlockIo (Option Nat)
  | _, [] => pure none
  | dirent, i :: rest => do
    let (n, bytes) ← diskInode.readAt (direntSz * i) dirent.asBytes
    if n = direntSz then
      let dirent := DirEntry.ofBytes bytes
      if dirent.nameOf = name then pure (some dirent.inodeId)
      else findInodeIdLoop name diskInode dirent rest
    else BlockIo.panic (direntSzMsg n)

/-- `Inode::find_inode_id`: the inode id of the first record named `name`. -/
def findInodeId (name : List UInt8) (diskInode : DiskInode) : BlockIo (Option Nat) :=
  if diskInode.isDir then
    findInodeIdLoop name diskInode DirEntry.empty (List.range (diskInode.size / direntSz))
  else BlockIo.panic findIsDirMsg

/-- `Inode::find`. -/
def find (self : Inode) (name : List UInt8) : BlockIo (Option Inode) :=
  self.readDiskInode fun diskInode ↦ do
    let inodeId ← findInodeId name diskInode
    pure (inodeId.map (ofInodeId fs))

/-- The loop `for _ in 0..blocks_needed { v.push(fs.alloc_data()) }` of `Inode::increase_size`. -/
def allocDataLoop : Nat → List Nat → BlockIo (List Nat)
  | 0, v => pure v
  | n + 1, v => do
    let blockId ← fs.allocData
    allocDataLoop n (v ++ [blockId])

/-- `Inode::increase_size`: allocate the blocks the new size needs and wire them in. -/
def increaseSize (newSize : Nat) (diskInode : DiskInode) : BlockIo DiskInode :=
  if newSize < diskInode.size then pure diskInode
  else do
    let v ← allocDataLoop fs (diskInode.blocksNumNeeded newSize) []
    diskInode.increaseSize newSize v

/-- The closure `op` of `create`, `link` and `unlink`: the directory check, then the lookup. -/
def lookupOp (name : List UInt8) (rootInode : DiskInode) : BlockIo (Option Nat) :=
  if rootInode.isDir then findInodeId name rootInode else BlockIo.panic rootIsDirMsg

/-- The closure of `create` and of `link` that appends the record `(name, inodeId)` to the
directory: grow it by one record, then write the record into the new slot. -/
def appendDirent (name : List UInt8) (inodeId : Nat) (rootInode : DiskInode) :
    BlockIo (DiskInode × Unit) := do
  let fileCount := rootInode.size / direntSz
  let newSize := (fileCount + 1) * direntSz
  let rootInode ← increaseSize fs (newSize % 2 ^ 32) rootInode
  let dirent := DirEntry.new name inodeId
  let _ ← rootInode.writeAt (fileCount * direntSz) dirent.asBytes
  pure (rootInode, ())

/-- `Inode::create`. -/
def create (self : Inode) (name : List UInt8) : BlockIo (Option Inode) := do
  let found ← self.readDiskInode (lookupOp name)
  if found.isSome then pure none
  else do
    let newInodeId ← fs.allocInode
    let (newInodeBlockId, newInodeBlockOffset) := fs.getDiskInodePos newInodeId
    BlockIo.modify newInodeBlockId newInodeBlockOffset diskInodeSize fun newInode ↦
      pure (((DiskInode.ofBytes newInode).initializeAs .file).toBytes, ())
    self.modifyDiskInode (appendDirent fs name newInodeId)
    let (blockId, blockOffset) := fs.getDiskInodePos newInodeId
    BlockIo.syncAll
    pure (some (new blockId blockOffset))

/-- The loop of `Inode::ls`, a fresh `dirent` buffer per record. -/
def lsLoop (diskInode : DiskInode) : List Nat → BlockIo (List (List UInt8))
  | [] => pure []
  | i :: rest => do
    let (n, bytes) ← diskInode.readAt (i * direntSz) DirEntry.empty.asBytes
    if n = direntSz then do
      let names ← lsLoop diskInode rest
      pure ((DirEntry.ofBytes bytes).nameOf :: names)
    else BlockIo.panic (direntSzMsg n)

/-- `Inode::ls`. -/
def ls (self : Inode) : BlockIo (List (List UInt8)) :=
  self.readDiskInode fun diskInode ↦ lsLoop diskInode (List.range (diskInode.size / direntSz))

/-- `Inode::read_at`. -/
def readAt (self : Inode) (offset : Nat) (buf : List UInt8) : BlockIo (Nat × List UInt8) :=
  self.readDiskInode fun diskInode ↦ diskInode.readAt offset buf

/-- `Inode::write_at`. -/
def writeAt (self : Inode) (offset : Nat) (buf : List UInt8) : BlockIo Nat := do
  let size ← self.modifyDiskInode fun diskInode ↦ do
    let diskInode ← increaseSize fs ((offset + buf.length) % 2 ^ 32) diskInode
    let n ← diskInode.writeAt offset buf
    pure (diskInode, n)
  BlockIo.syncAll
  pure size

/-- The loop `for data_block in data_blocks_dealloc` of `Inode::clear`. -/
def deallocLoop : List Nat → BlockIo Unit
  | [] => pure ()
  | dataBlock :: rest => do
    fs.deallocData dataBlock
    deallocLoop rest

/-- `Inode::clear`. -/
def clear (self : Inode) : BlockIo Unit := do
  self.modifyDiskInode fun diskInode ↦ do
    let size := diskInode.size
    let (diskInode, dataBlocksDealloc) ← diskInode.clearSize
    if dataBlocksDealloc.length = DiskInode.totalBlocks size then do
      deallocLoop fs dataBlocksDealloc
      pure (diskInode, ())
    else BlockIo.panic clearMsg
  BlockIo.syncAll

/-- `Inode::link`: a second record for the inode of the first record named `old`. -/
def link (self : Inode) (old new : List UInt8) : BlockIo (Option Inode) := do
  match ← self.readDiskInode (lookupOp old) with
  | some oldInodeId =>
    let newInodeId := oldInodeId
    let (newInodeBlockId, newInodeBlockOffset) := fs.getDiskInodePos newInodeId
    self.modifyDiskInode (appendDirent fs new newInodeId)
    pure (some (Inode.new newInodeBlockId newInodeBlockOffset))
  | none => pure none

/-- The loop of the closure of `Inode::unlink`: the first record named `name` takes a copy of
the last record and the directory loses one record; `buf` is read into at every round. -/
def unlinkLoop (name : List UInt8) (fileCount : Nat) (rootInode : DiskInode) :
    DirEntry → List Nat → BlockIo DiskInode
  | _, [] => pure rootInode
  | buf, i :: rest => do
    let (n, bytes) ← rootInode.readAt (direntSz * i) buf.asBytes
    let buf := DirEntry.ofBytes bytes
    if n = direntSz ∧ buf.nameOf = name then do
      let (_, swap) ← rootInode.readAt (direntSz * (fileCount - 1)) DirEntry.empty.asBytes
      let _ ← rootInode.writeAt (direntSz * i) swap
      pure { rootInode with size := rootInode.size - direntSz }
    else unlinkLoop name fileCount rootInode buf rest

/-- `Inode::unlink`: `0` once a record named `name` is gone, `-1` when there is none. -/
def unlink (self : Inode) (name : List UInt8) : BlockIo Int := do
  match ← self.readDiskInode (lookupOp name) with
  | some _ =>
    self.modifyDiskInode fun rootInode ↦ do
      let fileCount := rootInode.size / direntSz
      let rootInode ← unlinkLoop name fileCount rootInode DirEntry.empty (List.range fileCount)
      pure (rootInode, ())
    pure 0
  | none => pure (-1)

/-- The loop of `Inode::get_link_num`. -/
def linkNumLoop (rootInode : DiskInode) (blockId blockOffset : Nat) :
    DirEntry → List Nat → BlockIo Nat
  | _, [] => pure 0
  | buf, i :: rest => do
    let (n, bytes) ← rootInode.readAt (direntSz * i) buf.asBytes
    if n = direntSz then do
      let buf := DirEntry.ofBytes bytes
      let count ← linkNumLoop rootInode blockId blockOffset buf rest
      pure (if fs.getDiskInodePos buf.inodeId = (blockId, blockOffset) then count + 1 else count)
    else BlockIo.panic (direntSzMsg n)

/-- `Inode::get_link_num`: the records of the directory whose inode lives at the address. -/
def getLinkNum (self : Inode) (blockId blockOffset : Nat) : BlockIo Nat :=
  self.readDiskInode fun rootInode ↦
    linkNumLoop fs rootInode blockId blockOffset DirEntry.empty
      (List.range (rootInode.size / direntSz))

end Inode

/-- Modelled from the spec: `EasyFileSystem::root_inode`, the handle of inode 0. -/
def EasyFileSystem.rootInode (fs : EasyFileSystem) : Inode := Inode.ofInodeId fs 0

end Rcore.EasyFs
