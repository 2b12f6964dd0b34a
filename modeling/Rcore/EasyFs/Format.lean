import Rcore.EasyFs.DirectoryOps

/-!
# Formatting a device

`EasyFileSystem::create` zeroes every block of the device, allocates inode 0 and initialises it
as the empty root directory. On a layout whose regions fit the device, the bitmaps are zero when
the root is allocated, so the allocation returns inode 0 and the assertion holds; the formatted
array then satisfies the filesystem invariant with the root as its one inode and no data block in
use (`runStore_create`, `inv_of_create`).
-/

set_option autoImplicit false
set_option relaxedAutoImplicit false

namespace Rcore.EasyFs

/-- The block of zeros `EasyFileSystem::create` writes over the device. -/
def zeroBlock : Block := fun _ ↦ 0

theorem slice_zeroBlock (offset size : Nat) : zeroBlock.slice offset size = List.replicate size 0 := by
  simp [Block.slice, Block.get, zeroBlock, List.map_const']

theorem leValue_replicate_zero : ∀ n, leValue (List.replicate n 0) = 0
  | 0 => rfl
  | n + 1 => by rw [List.replicate_succ, leValue, leValue_replicate_zero n]; rfl

theorem words_replicate_zero (width count n : Nat) :
    words width count (List.replicate n 0) = List.replicate count 0 := by
  simp [words, List.take_replicate, List.drop_replicate, leValue_replicate_zero, List.map_const']

theorem bitAt_replicate_zero (n k : Nat) : bitAt (List.replicate n 0) k = false := by
  rw [bitAt, List.getD_eq_getElem?_getD, List.getElem?_replicate]
  split_ifs <;> simp

namespace Bitmap

variable (bm : Bitmap) {store : Nat → Block}

/-- A region of zero blocks has no bit set. -/
theorem allocated_of_zero
    (h : ∀ b, bm.startBlockId ≤ b → b < bm.startBlockId + bm.blocks → store b = zeroBlock) :
    bm.allocated store = ∅ := by
  refine Finset.filter_false_of_mem fun i hi ↦ ?_
  have : i / blockBits < bm.blocks := by
    have := Finset.mem_range.mp hi
    simp only [maximum, blockBits_eq] at this ⊢
    omega
  rw [isSet, blockWords, h _ (Nat.le_add_left _ _) (by omega), slice_zeroBlock, bitmapBlock,
    words_replicate_zero, bitAt_replicate_zero]
  exact Bool.false_ne_true

end Bitmap

namespace EasyFileSystem

/-- The loop of `create` zeroes the blocks it is given and leaves every other block. -/
theorem runStore_clearBlocks : ∀ (l : List Nat) (store : Nat → Block),
    (clearBlocks l).runStore store = .ok ((), fun b ↦ if b ∈ l then zeroBlock else store b)
  | [], store => by simp [clearBlocks]
  | b :: rest, store => by
    simp only [clearBlocks, BlockIo.bind_eq]
    rw [BlockIo.runStore_bind_of_ok _ (by
      rw [BlockIo.runStore_modify _ _ _ _ _ (Nat.zero_add _).le]; rfl), runStore_clearBlocks rest]
    congr 2
    funext c
    by_cases hc : c ∈ rest
    · simp [hc]
    · by_cases hcb : c = b
      · subst hcb
        simp only [List.mem_cons, true_or, if_true, if_neg hc, Function.update_same]
        exact Block.ext_get fun j ↦ by
          rw [Block.get_write]
          split_ifs with hj
          · simp [zeroBlock, Block.get]
          · simp [zeroBlock, Block.get, show ¬ j < blockSz by omega]
      · simp [hc, hcb]

variable {totalBlocks inodeBitmapBlocks : Nat}

/-- The layout of a device of at most `2 ^ 30` blocks that holds its regions is sound. -/
theorem wellFormed_layout (hfit : (layout totalBlocks inodeBitmapBlocks).dataAreaStartBlock ≤ totalBlocks)
    (hT : totalBlocks ≤ 2 ^ 30) : (layout totalBlocks inodeBitmapBlocks).WellFormed := by
  dsimp only [layout, Bitmap.maximum, blockBits_eq, blockSz, diskInodeSize] at hfit
  constructor <;> dsimp only [layout, Bitmap.maximum, blockBits_eq, blockSz, diskInodeSize] <;> omega

/-- The inode id `alloc_inode` returns on the zeroed device: inode 0, when there is an inode
bitmap at all. -/
theorem runStore_allocInode_zero {store : Nat → Block}
    (hzero : ((layout totalBlocks inodeBitmapBlocks).inodeBitmap.allocated store) = ∅)
    (hpos : 0 < inodeBitmapBlocks) :
    ∃ store₁, (layout totalBlocks inodeBitmapBlocks).allocInode.runStore store = .ok (0, store₁) := by
  obtain ⟨r, s₁, hrun, hnone, -, hsome, -⟩ :=
    (layout totalBlocks inodeBitmapBlocks).inodeBitmap.alloc_allocated store
  have hmax : 0 < (layout totalBlocks inodeBitmapBlocks).inodeBitmap.maximum := by
    simp only [layout, Bitmap.maximum, blockBits_eq]
    omega
  cases r with
  | none =>
    have := hzero ▸ hnone.mp rfl
    exact absurd (this ▸ Finset.mem_range.mpr hmax) (Finset.not_mem_empty 0)
  | some m =>
    have hm : m = 0 := by
      by_contra hm
      exact Finset.not_mem_empty 0 (hzero ▸ (hsome m rfl).2.2.1 0 (Nat.pos_of_ne_zero hm))
    refine ⟨s₁, ?_⟩
    simp only [allocInode, BlockIo.bind_eq]
    rw [BlockIo.runStore_bind_of_ok _ hrun, hm]
    rfl

/-- `EasyFileSystem::create` on a device whose blocks hold the regions of a sound layout: it
returns the layout, with inode 0 the one inode in use, its record an empty directory, and no data
block in use. -/
theorem runStore_create (device : Nat → Block)
    (hwf : (layout totalBlocks inodeBitmapBlocks).WellFormed) (hpos : 0 < inodeBitmapBlocks)
    (hfit : (layout totalBlocks inodeBitmapBlocks).dataAreaStartBlock ≤ totalBlocks) :
    ∃ store, (create totalBlocks inodeBitmapBlocks).runStore device =
        .ok (layout totalBlocks inodeBitmapBlocks, store) ∧
      (layout totalBlocks inodeBitmapBlocks).Inv store ∧
      (layout totalBlocks inodeBitmapBlocks).inodes store = {0} ∧
      ((layout totalBlocks inodeBitmapBlocks).diskInode store 0).isDir ∧
      ((layout totalBlocks inodeBitmapBlocks).diskInode store 0).size = 0 ∧
      (layout totalBlocks inodeBitmapBlocks).dataInUse store = ∅ := by
  set fs := layout totalBlocks inodeBitmapBlocks with hfs
  set s₀ : Nat → Block := fun b ↦ if b ∈ List.range totalBlocks then zeroBlock else device b
  have hzero : ∀ b < fs.dataAreaStartBlock, s₀ b = zeroBlock := fun b hb ↦
    if_pos (List.mem_range.mpr (by omega))
  have hib : fs.inodeBitmap.startBlockId + fs.inodeBitmap.blocks ≤ fs.dataAreaStartBlock :=
    show 1 + inodeBitmapBlocks ≤ 1 + (inodeBitmapBlocks + _) + _ from
      (Nat.add_le_add_left (Nat.le_add_right _ _) 1).trans (Nat.le_add_right _ _)
  have hdb : fs.dataBitmap.startBlockId + fs.dataBitmap.blocks = fs.dataAreaStartBlock := rfl
  have hinodes : fs.inodes s₀ = ∅ := fs.inodeBitmap.allocated_of_zero fun b _ hb ↦
    hzero b (by omega)
  have hdata : fs.dataBitmap.allocated s₀ = ∅ := fs.dataBitmap.allocated_of_zero fun b _ hb ↦
    hzero b (by omega)
  have hinv₀ : fs.Inv s₀ := ⟨hwf, fun x hx ↦ by simp [hinodes] at hx, fun x hx ↦ by
    simp [hinodes] at hx⟩
  obtain ⟨s₁, halloc⟩ := runStore_allocInode_zero hinodes hpos
  have hn := fs.newInode_of_allocInode hwf halloc .directory
  have hroot := fs.diskInode_setDiskInode s₁ (DiskInode.valid_initializeAs (fs.diskInode s₁ 0)
    .directory) 0 0
  rw [if_pos rfl] at hroot
  refine ⟨_, ?_, hinv₀.newInode hn, by rw [hn.inodes_eq, hinodes]; rfl,
    by rw [hroot]; rfl, hn.size_eq,
    by rw [dataInUse, hn.dataBitmap_allocated hwf, hdata, Finset.image_empty]⟩
  simp only [create, BlockIo.bind_eq]
  rw [BlockIo.runStore_bind_of_ok _ (runStore_clearBlocks _ device),
    BlockIo.runStore_bind_of_ok _ halloc, if_pos rfl,
    BlockIo.runStore_bind_of_ok _ (fs.runStore_initRecord 0 .directory s₁)]
  rfl

/-- Every run of `EasyFileSystem::create` that returns, on a sound layout that fits the device,
formats the device as `runStore_create` says: with no inode bitmap the allocation of the root
fails. -/
theorem create_ok {device store : Nat → Block} {fs : EasyFileSystem}
    (h : (create totalBlocks inodeBitmapBlocks).runStore device = .ok (fs, store))
    (hwf : (layout totalBlocks inodeBitmapBlocks).WellFormed)
    (hfit : (layout totalBlocks inodeBitmapBlocks).dataAreaStartBlock ≤ totalBlocks) :
    fs = layout totalBlocks inodeBitmapBlocks ∧ fs.Inv store ∧ fs.inodes store = {0} ∧
      (fs.diskInode store 0).isDir ∧ (fs.diskInode store 0).size = 0 ∧ fs.dataInUse store = ∅ := by
  rcases Nat.eq_zero_or_pos inodeBitmapBlocks with h0 | hpos
  · subst h0
    obtain ⟨r, s₁, hrun, hnone, -⟩ := (layout totalBlocks 0).inodeBitmap.alloc_allocated
      (fun b ↦ if b ∈ List.range totalBlocks then zeroBlock else device b)
    have hmax : (layout totalBlocks 0).inodeBitmap.maximum = 0 := Nat.zero_mul blockBits
    have hr : r = none := hnone.mpr (by rw [Bitmap.allocated, hmax, Finset.range_zero, Finset.filter_empty])
    have halloc : (layout totalBlocks 0).allocInode.runStore
        (fun b ↦ if b ∈ List.range totalBlocks then zeroBlock else device b) =
        .error unwrapNoneMsg := by
      simp only [allocInode, BlockIo.bind_eq]
      rw [BlockIo.runStore_bind_of_ok _ hrun, hr]
      rfl
    simp only [create, BlockIo.bind_eq] at h
    rw [BlockIo.runStore_bind_of_ok _ (runStore_clearBlocks _ device), BlockIo.runStore_bind,
      halloc] at h
    cases h
  · obtain ⟨s, hrun, hres⟩ := runStore_create device hwf hpos hfit
    rw [hrun] at h
    obtain ⟨rfl, rfl⟩ := Prod.mk.inj (Except.ok.inj h)
    exact ⟨rfl, hres⟩

end EasyFileSystem

end Rcore.EasyFs
