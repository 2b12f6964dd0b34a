import Rcore.EasyFs.Handles
import Rcore.EasyFs.Vfs

/-!
# The operations of `vfs.rs` on the block cache

Every computation of the filesystem holds at most three block-cache handles at once. A `read` or a
`modify` of a bitmap block, an index block or a data block runs a closure that takes no handle
(depth one); `DiskInode::increase_size` and `clear_size` take a second-level index block from
inside the `modify` of the doubly indirect block (depth two); and `Inode` runs them inside the
`read_disk_inode` or `modify_disk_inode` of its own record (depth three). The bounds are stated for
each function of the model, loop by loop, in the order the code calls them.

With `BLOCK_CACHE_SIZE = 16` that leaves room for thirteen handles held elsewhere, so no call
meets `Run out of BlockCache!`: on the cache every call of `efs.rs` and `vfs.rs` returns what it
returns on the block array the cache stands for, or panics as it does there
(`fs_calls_cache_transparent`).
-/

set_option autoImplicit false
set_option relaxedAutoImplicit false

namespace Rcore.EasyFs

namespace BlockIo

theorem HoldsAtMost.ite {α : Type} {n : Nat} {c : Prop} [Decidable c] {x y : BlockIo α}
    (hx : HoldsAtMost n x) (hy : HoldsAtMost n y) : HoldsAtMost n (if c then x else y) := by
  split
  exacts [hx, hy]

end BlockIo

open BlockIo

/-! ### The bitmap and the layout manager -/

namespace Bitmap

variable (bm : Bitmap)

theorem holdsAtMost_allocFrom : ∀ l, (bm.allocFrom l).HoldsAtMost 1
  | [] => .pure 1 none
  | _ :: rest => .bind (.modify fun _ ↦ .pure 0 _) fun _ ↦
      .ite (.pure 1 _) (holdsAtMost_allocFrom rest)

theorem holdsAtMost_alloc : bm.alloc.HoldsAtMost 1 := bm.holdsAtMost_allocFrom _

theorem holdsAtMost_dealloc (bit : Nat) : (bm.dealloc bit).HoldsAtMost 1 :=
  .modify fun _ ↦ .ite (.pure 0 _) (.panic 0 _)

end Bitmap

namespace EasyFileSystem

variable (fs : EasyFileSystem)

theorem holdsAtMost_allocInode : fs.allocInode.HoldsAtMost 1 :=
  .bind fs.inodeBitmap.holdsAtMost_alloc fun
    | some _ => .pure 1 _
    | none => .panic 1 _

theorem holdsAtMost_allocData : fs.allocData.HoldsAtMost 1 :=
  .bind fs.dataBitmap.holdsAtMost_alloc fun
    | some _ => .pure 1 _
    | none => .panic 1 _

theorem holdsAtMost_deallocData (blockId : Nat) : (fs.deallocData blockId).HoldsAtMost 1 :=
  fs.dataBitmap.holdsAtMost_dealloc _

theorem holdsAtMost_clearBlocks : ∀ l, (clearBlocks l).HoldsAtMost 1
  | [] => .pure 1 ()
  | _ :: rest => .bind (.modify fun _ ↦ .pure 0 _) fun _ ↦ holdsAtMost_clearBlocks rest

/-- `EasyFileSystem::create` takes one handle at a time. -/
theorem holdsAtMost_create (totalBlocks inodeBitmapBlocks : Nat) :
    (create totalBlocks inodeBitmapBlocks).HoldsAtMost 1 :=
  .bind (holdsAtMost_clearBlocks _) fun _ ↦ .bind (holdsAtMost_allocInode _) fun _ ↦
    .ite (.bind (.modify fun _ ↦ .pure 0 _) fun _ ↦ .bind (.syncAll 1) fun _ ↦ .pure 1 _)
      (.panic 1 _)

end EasyFileSystem

/-! ### The disk inode -/

namespace DiskInode

variable (d : DiskInode)

theorem holdsAtMost_getBlockId (i : Nat) : (d.getBlockId i).HoldsAtMost 1 := by
  unfold getBlockId
  split_ifs
  · exact .pure 1 _
  · exact .read fun _ ↦ .pure 0 _
  · exact .bind (.read fun _ ↦ .ite (.pure 0 _) (.panic 0 _)) fun _ ↦ .read fun _ ↦ .pure 0 _

theorem holdsAtMost_readAtLoop (end_ start startBlock readSize : Nat) (buf : List UInt8) :
    (d.readAtLoop end_ start startBlock readSize buf).HoldsAtMost 1 := by
  induction start, startBlock, readSize, buf using readAtLoop.induct d end_ with
  | case1 start startBlock readSize buf _ _ ih =>
    rw [readAtLoop]
    exact .bind (d.holdsAtMost_getBlockId startBlock) fun _ ↦
      .bind (.read fun _ ↦ .pure 0 _) fun src ↦ by
        split
        · exact .pure 1 _
        · exact ih src ‹_›

theorem holdsAtMost_readAt (offset : Nat) (buf : List UInt8) :
    (d.readAt offset buf).HoldsAtMost 1 :=
  .ite (.pure 1 _) (d.holdsAtMost_readAtLoop _ _ _ _ _)

theorem holdsAtMost_writeAtLoop (buf : List UInt8) (end_ start startBlock writeSize : Nat) :
    (d.writeAtLoop buf end_ start startBlock writeSize).HoldsAtMost 1 := by
  induction start, startBlock, writeSize using writeAtLoop.induct d buf end_ with
  | case1 start startBlock writeSize _ _ ih =>
    rw [writeAtLoop]
    exact .bind (d.holdsAtMost_getBlockId startBlock) fun _ ↦
      .bind (.modify fun _ ↦ .pure 0 _) fun _ ↦ by
        split
        · exact .pure 1 _
        · exact ih ‹_›

theorem holdsAtMost_writeAt (offset : Nat) (buf : List UInt8) :
    (d.writeAt offset buf).HoldsAtMost 1 :=
  .ite (d.holdsAtMost_writeAtLoop _ _ _ _ _) (.panic 1 _)

theorem holdsAtMost_nextBlock (n : Nat) : ∀ l, (nextBlock l).HoldsAtMost n
  | [] => .panic n _
  | _ :: _ => .pure n _

theorem holdsAtMost_fillSlots (n bound : Nat) (slots : List Nat) (cur : Nat)
    (newBlocks : List Nat) : (fillSlots bound slots cur newBlocks).HoldsAtMost n := by
  induction slots, cur, newBlocks using fillSlots.induct bound with
  | case1 slots cur newBlocks h ih =>
    rw [fillSlots, if_pos h]
    exact .bind (holdsAtMost_nextBlock n newBlocks) fun r ↦ ih r.1 r.2
  | case2 slots cur newBlocks h =>
    rw [fillSlots, if_neg h]
    exact .pure n _

theorem holdsAtMost_fillIndirect2 (a1 b1 : Nat) (indirect2 : List Nat) (a0 b0 : Nat)
    (newBlocks : List Nat) : (fillIndirect2 a1 b1 indirect2 a0 b0 newBlocks).HoldsAtMost 1 := by
  induction indirect2, a0, b0, newBlocks using fillIndirect2.induct a1 b1 with
  | case1 _ _ _ ha hc hb ih₁ ih₂ | case2 _ _ _ _ hc ha hb _ ih₁ ih₂ =>
    rw [fillIndirect2, if_pos hc, if_pos ha, if_pos hb]
    -- with or without a fresh second-level block, the round fills one slot through index block
    -- `a0` and goes on to the next slot
    refine .ite (.bind (holdsAtMost_nextBlock 1 _) fun _ ↦ .bind (.pure 1 _) fun _ ↦ ?_)
      (.bind (.pure 1 _) fun _ ↦ ?_) <;>
      refine .bind (.modify fun _ ↦ .bind (holdsAtMost_nextBlock 0 _) fun _ ↦ .pure 0 _)
        fun _ ↦ ?_ <;>
      split
    exacts [ih₁ _ _ ‹_›, ih₂ _ _ ‹_›, ih₁ _ _ ‹_›, ih₂ _ _ ‹_›]
  | case3 _ _ _ _ hc ha hb => rw [fillIndirect2, if_pos hc, if_pos ha, if_neg hb]; exact .panic 1 _
  | case4 _ _ _ _ hc ha => rw [fillIndirect2, if_pos hc, if_neg ha]; exact .panic 1 _
  | case5 _ _ _ _ hc => rw [fillIndirect2, if_neg hc]; exact .pure 1 _

/-- The doubly indirect block is held while the second-level index blocks are filled. -/
theorem holdsAtMost_increaseIndirect2 (currentBlocks totalBlocks : Nat) (newBlocks : List Nat) :
    (d.increaseIndirect2 currentBlocks totalBlocks newBlocks).HoldsAtMost 2 := by
  refine .ite (.ite (.bind (holdsAtMost_nextBlock 2 _) fun _ ↦ .bind (.pure 2 _) fun _ ↦ ?_)
    (.bind (.pure 2 _) fun _ ↦ ?_)) (.pure 2 _) <;>
  exact .bind (.modify fun _ ↦ .bind (holdsAtMost_fillIndirect2 _ _ _ _ _ _) fun _ ↦ .pure 1 _)
    fun _ ↦ .pure 2 _

theorem holdsAtMost_fillIndirect1 (indirect1 currentBlocks totalBlocks : Nat)
    (newBlocks : List Nat) :
    (fillIndirect1 indirect1 currentBlocks totalBlocks newBlocks).HoldsAtMost 1 :=
  .modify fun _ ↦ .bind (holdsAtMost_fillSlots 0 _ _ _ _) fun _ ↦ .pure 0 _

theorem holdsAtMost_increaseIndirect1 (currentBlocks totalBlocks : Nat) (newBlocks : List Nat) :
    (d.increaseIndirect1 currentBlocks totalBlocks newBlocks).HoldsAtMost 2 := by
  refine .ite (.ite (.bind (holdsAtMost_nextBlock 2 _) fun _ ↦ .bind (.pure 2 _) fun _ ↦ ?_)
    (.bind (.pure 2 _) fun _ ↦ ?_)) (.pure 2 _) <;>
  exact .bind ((holdsAtMost_fillIndirect1 _ _ _ _).mono (Nat.le_succ 1)) fun _ ↦
    holdsAtMost_increaseIndirect2 _ _ _ _

theorem holdsAtMost_increaseSize (newSize : Nat) (newBlocks : List Nat) :
    (d.increaseSize newSize newBlocks).HoldsAtMost 2 :=
  .bind (holdsAtMost_fillSlots 2 _ _ _ _) fun _ ↦ holdsAtMost_increaseIndirect1 _ _ _ _

theorem holdsAtMost_clearIndirect1Blocks :
    ∀ entries v, (clearIndirect1Blocks entries v).HoldsAtMost 1
  | [], _ => .pure 1 _
  | _ :: entries, _ => .bind (.modify fun _ ↦ .pure 0 _) fun v ↦
      holdsAtMost_clearIndirect1Blocks entries v

/-- The doubly indirect block is held while the second-level index blocks are read. -/
theorem holdsAtMost_clearSize : d.clearSize.HoldsAtMost 2 := by
  unfold clearSize
  refine .ite (.bind (.modify fun _ ↦ .pure 1 _) fun _ ↦
    .ite (.ite (.bind (.modify fun _ ↦ ?_) fun _ ↦ .pure 2 _) (.panic 2 _)) (.pure 2 _))
    (.pure 2 _)
  exact .bind (holdsAtMost_clearIndirect1Blocks _ _) fun _ ↦
    .ite (.bind (.modify fun _ ↦ .pure 0 _) fun _ ↦ .pure 1 _)
      (.bind (.pure 1 _) fun _ ↦ .pure 1 _)

end DiskInode

/-! ### The inode layer -/

namespace Inode

variable (fs : EasyFileSystem)

theorem holdsAtMost_readDiskInode {V : Type} (self : Inode) {f : DiskInode → BlockIo V} {n : Nat}
    (hf : ∀ d, (f d).HoldsAtMost n) : (self.readDiskInode f).HoldsAtMost (n + 1) :=
  .read fun _ ↦ hf _

theorem holdsAtMost_modifyDiskInode {V : Type} (self : Inode)
    {f : DiskInode → BlockIo (DiskInode × V)} {n : Nat} (hf : ∀ d, (f d).HoldsAtMost n) :
    (self.modifyDiskInode f).HoldsAtMost (n + 1) :=
  .modify fun _ ↦ .bind (hf _) fun _ ↦ .pure n _

theorem holdsAtMost_findInodeIdLoop (name : List UInt8) (diskInode : DiskInode) :
    ∀ dirent l, (findInodeIdLoop name diskInode dirent l).HoldsAtMost 1
  | _, [] => .pure 1 _
  | _, _ :: rest => .bind (diskInode.holdsAtMost_readAt _ _) fun _ ↦
      .ite (.ite (.pure 1 _) (holdsAtMost_findInodeIdLoop name diskInode _ rest)) (.panic 1 _)

theorem holdsAtMost_findInodeId (name : List UInt8) (diskInode : DiskInode) :
    (findInodeId name diskInode).HoldsAtMost 1 :=
  .ite (holdsAtMost_findInodeIdLoop _ _ _ _) (.panic 1 _)

theorem holdsAtMost_lookupOp (name : List UInt8) (rootInode : DiskInode) :
    (lookupOp name rootInode).HoldsAtMost 1 :=
  .ite (holdsAtMost_findInodeId _ _) (.panic 1 _)

theorem holdsAtMost_allocDataLoop : ∀ n v, (allocDataLoop fs n v).HoldsAtMost 1
  | 0, _ => .pure 1 _
  | n + 1, _ => .bind fs.holdsAtMost_allocData fun _ ↦ holdsAtMost_allocDataLoop n _

theorem holdsAtMost_increaseSize (newSize : Nat) (diskInode : DiskInode) :
    (increaseSize fs newSize diskInode).HoldsAtMost 2 :=
  .ite (.pure 2 _) (.bind ((holdsAtMost_allocDataLoop fs _ _).mono (Nat.le_succ 1)) fun _ ↦
    diskInode.holdsAtMost_increaseSize _ _)

theorem holdsAtMost_appendDirent (name : List UInt8) (inodeId : Nat) (rootInode : DiskInode) :
    (appendDirent fs name inodeId rootInode).HoldsAtMost 2 :=
  .bind (holdsAtMost_increaseSize fs _ _) fun _ ↦
    .bind ((DiskInode.holdsAtMost_writeAt _ _ _).mono (Nat.le_succ 1)) fun _ ↦ .pure 2 _

theorem holdsAtMost_lsLoop (diskInode : DiskInode) : ∀ l, (lsLoop diskInode l).HoldsAtMost 1
  | [] => .pure 1 _
  | _ :: rest => .bind (diskInode.holdsAtMost_readAt _ _) fun _ ↦
      .ite (.bind (holdsAtMost_lsLoop diskInode rest) fun _ ↦ .pure 1 _) (.panic 1 _)

theorem holdsAtMost_deallocLoop : ∀ l, (deallocLoop fs l).HoldsAtMost 1
  | [] => .pure 1 _
  | _ :: rest => .bind (fs.holdsAtMost_deallocData _) fun _ ↦ holdsAtMost_deallocLoop rest

theorem holdsAtMost_unlinkLoop (name : List UInt8) (fileCount : Nat) (rootInode : DiskInode) :
    ∀ buf l, (unlinkLoop name fileCount rootInode buf l).HoldsAtMost 1
  | _, [] => .pure 1 _
  | _, _ :: rest => .bind (rootInode.holdsAtMost_readAt _ _) fun _ ↦
      .ite (.bind (rootInode.holdsAtMost_readAt _ _) fun _ ↦
          .bind (rootInode.holdsAtMost_writeAt _ _) fun _ ↦ .pure 1 _)
        (holdsAtMost_unlinkLoop name fileCount rootInode _ rest)

theorem holdsAtMost_linkNumLoop (rootInode : DiskInode) (blockId blockOffset : Nat) :
    ∀ buf l, (linkNumLoop fs rootInode blockId blockOffset buf l).HoldsAtMost 1
  | _, [] => .pure 1 _
  | _, _ :: rest => .bind (rootInode.holdsAtMost_readAt _ _) fun _ ↦
      .ite (.bind (holdsAtMost_linkNumLoop rootInode blockId blockOffset _ rest) fun _ ↦
        .pure 1 _) (.panic 1 _)

variable (self : Inode)

theorem holdsAtMost_find (name : List UInt8) : (self.find fs name).HoldsAtMost 2 :=
  self.holdsAtMost_readDiskInode fun _ ↦ .bind (holdsAtMost_findInodeId _ _) fun _ ↦ .pure 1 _

theorem holdsAtMost_ls : self.ls.HoldsAtMost 2 :=
  self.holdsAtMost_readDiskInode fun _ ↦ holdsAtMost_lsLoop _ _

theorem holdsAtMost_readAt (offset : Nat) (buf : List UInt8) :
    (self.readAt offset buf).HoldsAtMost 2 :=
  self.holdsAtMost_readDiskInode fun d ↦ d.holdsAtMost_readAt _ _

theorem holdsAtMost_getLinkNum (blockId blockOffset : Nat) :
    (self.getLinkNum fs blockId blockOffset).HoldsAtMost 2 :=
  self.holdsAtMost_readDiskInode fun _ ↦ holdsAtMost_linkNumLoop fs _ _ _ _ _

/-- `Inode::create` holds the directory's inode block while the directory grows. -/
theorem holdsAtMost_create (name : List UInt8) : (self.create fs name).HoldsAtMost 3 :=
  .bind ((self.holdsAtMost_readDiskInode (holdsAtMost_lookupOp name)).mono (Nat.le_succ 2))
    fun _ ↦ .ite (.pure 3 _) (.bind ((fs.holdsAtMost_allocInode).mono (by decide)) fun _ ↦
      .bind (.modify fun _ ↦ .pure 2 _) fun _ ↦
        .bind (self.holdsAtMost_modifyDiskInode (holdsAtMost_appendDirent fs name _)) fun _ ↦
          .bind (.syncAll 3) fun _ ↦ .pure 3 _)

theorem holdsAtMost_link (old new : List UInt8) : (self.link fs old new).HoldsAtMost 3 :=
  .bind ((self.holdsAtMost_readDiskInode (holdsAtMost_lookupOp old)).mono (Nat.le_succ 2)) fun
    | some _ => .bind (self.holdsAtMost_modifyDiskInode (holdsAtMost_appendDirent fs new _))
        fun _ ↦ .pure 3 _
    | none => .pure 3 _

theorem holdsAtMost_unlink (name : List UInt8) : (self.unlink name).HoldsAtMost 3 :=
  .bind ((self.holdsAtMost_readDiskInode (holdsAtMost_lookupOp name)).mono (Nat.le_succ 2)) fun
    | some _ => .bind ((self.holdsAtMost_modifyDiskInode fun _ ↦
          .bind (holdsAtMost_unlinkLoop _ _ _ _ _) fun _ ↦ .pure 1 _).mono (Nat.le_succ 2))
        fun _ ↦ .pure 3 _
    | none => .pure 3 _

theorem holdsAtMost_writeAt (offset : Nat) (buf : List UInt8) :
    (self.writeAt fs offset buf).HoldsAtMost 3 :=
  .bind (self.holdsAtMost_modifyDiskInode fun _ ↦
      .bind (holdsAtMost_increaseSize fs _ _) fun _ ↦
      .bind ((DiskInode.holdsAtMost_writeAt _ _ _).mono (Nat.le_succ 1)) fun _ ↦ .pure 2 _)
    fun _ ↦ .bind (.syncAll 3) fun _ ↦ .pure 3 _

theorem holdsAtMost_clear : (self.clear fs).HoldsAtMost 3 :=
  .bind (self.holdsAtMost_modifyDiskInode fun d ↦ .bind d.holdsAtMost_clearSize fun _ ↦
      .ite (.bind ((holdsAtMost_deallocLoop fs _).mono (Nat.le_succ 1)) fun _ ↦ .pure 2 _)
        (.panic 2 _))
    fun _ ↦ .syncAll 3

end Inode

/-! ### The cache is transparent to the filesystem -/

open CacheState

/-- With at most thirteen handles held elsewhere, the cache is transparent to every call of
`efs.rs` and `vfs.rs`, on every handle and with every argument: none of them meets `Run out of
BlockCache!`, and each returns or panics on the cache as it does on the block array the cache
stands for. -/
theorem fs_calls_cache_transparent (fs : EasyFileSystem) (self : Inode) {s : CacheState}
    (hs : s.Inv) (hroom : s.held.card + 3 ≤ blockCacheSize) :
    (∀ totalBlocks inodeBitmapBlocks,
      (EasyFileSystem.create totalBlocks inodeBitmapBlocks).CacheTransparent s) ∧
    (∀ name, (self.find fs name).CacheTransparent s) ∧ self.ls.CacheTransparent s ∧
    (∀ offset buf, (self.readAt offset buf).CacheTransparent s) ∧
    (∀ blockId blockOffset, (self.getLinkNum fs blockId blockOffset).CacheTransparent s) ∧
    (∀ name, (self.create fs name).CacheTransparent s) ∧
    (∀ old new, (self.link fs old new).CacheTransparent s) ∧
    (∀ name, (self.unlink name).CacheTransparent s) ∧
    (∀ offset buf, (self.writeAt fs offset buf).CacheTransparent s) ∧
    (self.clear fs).CacheTransparent s := by
  have fits {α : Type} {n : Nat} {x : BlockIo α} (hx : x.HoldsAtMost n) (hn : n ≤ 3) :
      x.CacheTransparent s :=
    runCache_agrees (hx.mono hn) hs hroom
  exact ⟨fun _ _ ↦ fits (EasyFileSystem.holdsAtMost_create _ _) (by decide),
    fun _ ↦ fits (self.holdsAtMost_find fs _) (by decide), fits self.holdsAtMost_ls (by decide),
    fun _ _ ↦ fits (self.holdsAtMost_readAt _ _) (by decide),
    fun _ _ ↦ fits (self.holdsAtMost_getLinkNum fs _ _) (by decide),
    fun _ ↦ fits (self.holdsAtMost_create fs _) le_rfl,
    fun _ _ ↦ fits (self.holdsAtMost_link fs _ _) le_rfl,
    fun _ ↦ fits (self.holdsAtMost_unlink _) le_rfl,
    fun _ _ ↦ fits (self.holdsAtMost_writeAt fs _ _) le_rfl,
    fits (self.holdsAtMost_clear fs) le_rfl⟩

theorem fs_calls_cache_transparent_init :
    (init zeroDevice).Inv ∧ (init zeroDevice).held.card + 3 ≤ blockCacheSize ∧
      ∀ name, ((Inode.ofInodeId (EasyFileSystem.layout 8192 1) 0).create
        (EasyFileSystem.layout 8192 1) name).CacheTransparent (init zeroDevice) :=
  ⟨inv_init _, by rw [held_init]; decide,
    (fs_calls_cache_transparent (EasyFileSystem.layout 8192 1) _ (inv_init _)
      (by rw [held_init]; decide)).2.2.2.2.2.1⟩

end Rcore.EasyFs
