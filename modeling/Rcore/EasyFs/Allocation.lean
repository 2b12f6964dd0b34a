import Rcore.EasyFs.InodeData
import Rcore.EasyFs.Vfs
import Mathlib.Data.Finset.Card

/-!
# Allocation of data blocks

`EasyFileSystem::alloc_data` hands out the data area's start plus the least clear bit of the
data bitmap, and `Inode::increase_size` calls it once for every block a new size needs before it
wires the blocks in. While the bitmap has room, the loop returns that many distinct blocks that
were free and marks exactly them (`runStore_allocDataLoop`), so the grown inode addresses its
old blocks followed by free ones (`runStore_inode_increaseSize`). `dealloc_data` and the loop of
`Inode::clear` unmark the blocks they are given (`runStore_deallocLoop`).

`Owned` is what the filesystem keeps for every allocated inode, and what these operations keep
for the inode they work on: a valid record whose blocks are distinct data blocks marked in the
data bitmap. `WellFormed` is the layout: the regions in order, and `u32` ids.
-/

set_option autoImplicit false
set_option relaxedAutoImplicit false

namespace Rcore.EasyFs

/-- A block that changed over two steps changed in one of them. -/
theorem changed_of_trans {s₁ s₃ : Nat → Block} (s₂ : Nat → Block) {b : Nat} (h : s₃ b ≠ s₁ b) :
    s₂ b ≠ s₁ b ∨ s₃ b ≠ s₂ b := by
  by_contra hc
  push_neg at hc
  exact h (hc.2.trans hc.1)

namespace EasyFileSystem

/-- The regions of a filesystem in the order `EasyFileSystem::create` lays them out: the inode
bitmap, the inode table with a record for every bit of the inode bitmap, the data bitmap and the
data area, whose block ids are `u32`s like the inode ids. -/
structure WellFormed (fs : EasyFileSystem) : Prop where
  inodeBitmap_le : fs.inodeBitmap.startBlockId + fs.inodeBitmap.blocks ≤ fs.inodeAreaStartBlock
  inodeArea_le : fs.inodeAreaStartBlock + fs.inodeBitmap.maximum / (blockSz / diskInodeSize) ≤
    fs.dataBitmap.startBlockId
  dataBitmap_le : fs.dataBitmap.startBlockId + fs.dataBitmap.blocks ≤ fs.dataAreaStartBlock
  dataArea_le : fs.dataAreaStartBlock + fs.dataBitmap.maximum ≤ 2 ^ 32
  inodeBitmap_le_u32 : fs.inodeBitmap.maximum ≤ 2 ^ 32

variable (fs : EasyFileSystem)

/-- The data blocks in use: the data area's start plus each set bit of the data bitmap. -/
def dataInUse (store : Nat → Block) : Finset Nat :=
  (fs.dataBitmap.allocated store).image (· + fs.dataAreaStartBlock)

/-- A block of the data bitmap. -/
def InDataBitmap (b : Nat) : Prop :=
  fs.dataBitmap.startBlockId ≤ b ∧ b < fs.dataBitmap.startBlockId + fs.dataBitmap.blocks

/-- A disk inode as the filesystem keeps every allocated one: a valid record of at most the
largest size, whose blocks are distinct data blocks marked in the data bitmap. -/
structure Owned (store : Nat → Block) (d : DiskInode) : Prop where
  valid : d.Valid
  dataBlocks_le : d.dataBlocks ≤ maxDataBlocks
  nodup : (d.addressed store).Nodup
  inUse : ∀ b ∈ d.addressed store, b ∈ fs.dataInUse store

variable {fs} {store store' : Nat → Block}

theorem mem_dataInUse {b : Nat} :
    b ∈ fs.dataInUse store ↔
      fs.dataAreaStartBlock ≤ b ∧ b - fs.dataAreaStartBlock ∈ fs.dataBitmap.allocated store := by
  simp only [dataInUse, Finset.mem_image]
  constructor
  · rintro ⟨m, hm, rfl⟩
    simpa using hm
  · rintro ⟨hb, hm⟩
    exact ⟨_, hm, Nat.sub_add_cancel hb⟩

theorem dataInUse_congr (h : ∀ b, fs.InDataBitmap b → store' b = store b) :
    fs.dataInUse store' = fs.dataInUse store := by
  rw [dataInUse, dataInUse, fs.dataBitmap.allocated_congr fun b h₁ h₂ ↦ h b ⟨h₁, h₂⟩]

/-- A block of the data area is no block of the data bitmap. -/
theorem not_inDataBitmap (hwf : fs.WellFormed) {b : Nat} (hb : fs.dataAreaStartBlock ≤ b) :
    ¬ fs.InDataBitmap b := by
  have := hwf.dataBitmap_le
  unfold InDataBitmap
  omega

theorem Owned.dataArea_le {d : DiskInode} (h : fs.Owned store d) {b : Nat}
    (hb : b ∈ d.addressed store) : fs.dataAreaStartBlock ≤ b :=
  (mem_dataInUse.mp (h.inUse b hb)).1

/-- Writes that reach only the data bitmap leave an owned inode's blocks and bytes. -/
theorem Owned.view_eq (hwf : fs.WellFormed) {d : DiskInode} (h : fs.Owned store d)
    (hs : ∀ b, store' b ≠ store b → fs.InDataBitmap b) :
    d.addressed store' = d.addressed store ∧ ∀ j < d.size, d.byteAt store' j = d.byteAt store j :=
  DiskInode.view_congr fun b hb ↦ by_contra fun hne ↦
    not_inDataBitmap hwf (h.dataArea_le hb) (hs b hne)

/-! ### `alloc_data` -/

/-- `EasyFileSystem::alloc_data` with a clear bit left: the least clear bit `m` is set and the
block `m + data_area_start_block` returned. -/
theorem runStore_allocData (store : Nat → Block)
    (hfree : (fs.dataBitmap.allocated store).card < fs.dataBitmap.maximum) :
    ∃ m store', fs.allocData.runStore store = .ok (m + fs.dataAreaStartBlock, store') ∧
      m < fs.dataBitmap.maximum ∧ m ∉ fs.dataBitmap.allocated store ∧
      fs.dataBitmap.allocated store' = insert m (fs.dataBitmap.allocated store) ∧
      ∀ b, store' b ≠ store b → fs.InDataBitmap b := by
  obtain ⟨r, store', hrun, hnone, -, hsome, hframe⟩ := fs.dataBitmap.alloc_allocated store
  cases r with
  | none =>
    have := congrArg Finset.card (hnone.mp rfl)
    rw [Finset.card_range] at this
    omega
  | some m =>
    obtain ⟨hm, hnot, -, heq⟩ := hsome m rfl
    refine ⟨m, store', ?_, hm, hnot, heq, fun b hb ↦ ?_⟩
    · simp only [allocData, BlockIo.bind_eq]
      rw [BlockIo.runStore_bind_of_ok _ hrun]
      rfl
    · by_contra h
      exact hb (hframe b (by unfold InDataBitmap at h; omega))

/-- The loop of `Inode::increase_size` allocating `k` blocks, when the data bitmap has `k`
clear bits: it appends `k` distinct blocks that were free, and marks exactly them. -/
theorem runStore_allocDataLoop (k : Nat) : ∀ (v : List Nat) (store : Nat → Block),
    (fs.dataBitmap.allocated store).card + k ≤ fs.dataBitmap.maximum →
    ∃ blocks store', (Inode.allocDataLoop fs k v).runStore store = .ok (v ++ blocks, store') ∧
      blocks.length = k ∧ blocks.Nodup ∧
      (∀ b ∈ blocks, fs.dataAreaStartBlock ≤ b ∧
        b < fs.dataAreaStartBlock + fs.dataBitmap.maximum ∧ b ∉ fs.dataInUse store) ∧
      fs.dataInUse store' = fs.dataInUse store ∪ blocks.toFinset ∧
      (fs.dataBitmap.allocated store').card = (fs.dataBitmap.allocated store).card + k ∧
      ∀ b, store' b ≠ store b → fs.InDataBitmap b := by
  induction k with
  | zero =>
    intro v store _
    exact ⟨[], store, by simp [Inode.allocDataLoop], rfl, List.nodup_nil, by simp, by simp, rfl,
      fun _ h ↦ absurd rfl h⟩
  | succ k ih =>
    intro v store hk
    obtain ⟨m, s₁, h₁, hm, hnot, heq, hfr₁⟩ := @runStore_allocData fs store (by omega)
    have hcard : (fs.dataBitmap.allocated s₁).card = (fs.dataBitmap.allocated store).card + 1 := by
      rw [heq, Finset.card_insert_of_not_mem hnot]
    have huse : fs.dataInUse s₁ = insert (m + fs.dataAreaStartBlock) (fs.dataInUse store) := by
      rw [dataInUse, heq, Finset.image_insert, dataInUse]
    have hfresh : m + fs.dataAreaStartBlock ∉ fs.dataInUse store := fun h ↦ by
      have := (mem_dataInUse.mp h).2
      rw [Nat.add_sub_cancel] at this
      exact hnot this
    obtain ⟨blocks, s₂, h₂, hlen, hnd, hnew, huse₂, hcard₂, hfr₂⟩ :=
      ih (v ++ [m + fs.dataAreaStartBlock]) s₁ (by omega)
    refine ⟨(m + fs.dataAreaStartBlock) :: blocks, s₂, ?_, by rw [List.length_cons, hlen],
      List.nodup_cons.mpr ⟨fun h ↦ (hnew _ h).2.2 (huse ▸ Finset.mem_insert_self _ _), hnd⟩,
      fun b hb ↦ ?_, ?_, by omega, fun b hb ↦ ?_⟩
    · simp only [Inode.allocDataLoop, BlockIo.bind_eq]
      rw [BlockIo.runStore_bind_of_ok _ h₁, h₂, List.append_assoc, List.singleton_append]
    · rcases List.mem_cons.mp hb with rfl | hb
      · exact ⟨Nat.le_add_left _ _, by omega, hfresh⟩
      · obtain ⟨h₁, h₂, h₃⟩ := hnew b hb
        exact ⟨h₁, h₂, fun h ↦ h₃ (huse ▸ Finset.mem_insert_of_mem h)⟩
    · rw [huse₂, huse, List.toFinset_cons, Finset.insert_union, Finset.union_insert]
    · rcases changed_of_trans s₁ hb with h | h
      exacts [hfr₁ b h, hfr₂ b h]

theorem card_allocated_le (bm : Bitmap) (store : Nat → Block) :
    (bm.allocated store).card ≤ bm.maximum := by
  simpa using Finset.card_le_card fun i (hi : i ∈ bm.allocated store) ↦
    Finset.mem_range.mpr (bm.mem_allocated.mp hi).1

/-- `alloc_data` returns only when the data bitmap had a clear bit: on a full bitmap the
`unwrap` of its `None` panics. -/
theorem card_lt_of_allocData {store store₁ : Nat → Block} {b : Nat}
    (h : fs.allocData.runStore store = .ok (b, store₁)) :
    (fs.dataBitmap.allocated store).card < fs.dataBitmap.maximum := by
  by_contra hle
  obtain ⟨r, s', hrun, hnone, -⟩ := fs.dataBitmap.alloc_allocated store
  have hfull : fs.dataBitmap.allocated store = Finset.range fs.dataBitmap.maximum :=
    Finset.eq_of_subset_of_card_le
      (fun i hi ↦ Finset.mem_range.mpr (fs.dataBitmap.mem_allocated.mp hi).1)
      (by rw [Finset.card_range]; omega)
  simp only [allocData, BlockIo.bind_eq] at h
  rw [BlockIo.runStore_bind, hrun, hnone.mpr hfull] at h
  simp at h

/-- The loop of `Inode::increase_size` returns only when the data bitmap had a clear bit for
each of its rounds. -/
theorem card_add_le_of_allocDataLoop : ∀ (k : Nat) (v : List Nat) (store : Nat → Block)
    {r : List Nat} {store' : Nat → Block}, (Inode.allocDataLoop fs k v).runStore store = .ok (r, store') →
    (fs.dataBitmap.allocated store).card + k ≤ fs.dataBitmap.maximum
  | 0, _, store, _, _, _ => card_allocated_le fs.dataBitmap store
  | k + 1, v, store, r, store', h => by
    simp only [Inode.allocDataLoop, BlockIo.bind_eq] at h
    obtain ⟨b, s₁, h₁, h₂⟩ := BlockIo.runStore_bind_eq_ok h
    have hlt := card_lt_of_allocData h₁
    obtain ⟨m, s₁', h₁', -, hnot, heq, -⟩ := runStore_allocData store hlt
    rw [h₁'] at h₁
    obtain ⟨rfl, rfl⟩ := Prod.mk.inj (Except.ok.inj h₁)
    have := card_add_le_of_allocDataLoop k _ _ h₂
    rw [heq, Finset.card_insert_of_not_mem hnot] at this
    omega

/-! ### `dealloc_data` -/

/-- The loop of `Inode::clear` over distinct blocks in use: it unmarks exactly them. -/
theorem runStore_deallocLoop : ∀ (v : List Nat) (store : Nat → Block), v.Nodup →
    (∀ b ∈ v, b ∈ fs.dataInUse store) →
    ∃ store', (Inode.deallocLoop fs v).runStore store = .ok ((), store') ∧
      fs.dataInUse store' = fs.dataInUse store \ v.toFinset ∧
      ∀ b, store' b ≠ store b → fs.InDataBitmap b
  | [], store, _, _ => ⟨store, by simp [Inode.deallocLoop], by simp, fun _ h ↦ absurd rfl h⟩
  | b :: rest, store, hnd, hin => by
    obtain ⟨hb, hm⟩ := mem_dataInUse.mp (hin b (List.mem_cons_self _ _))
    obtain ⟨-, hok⟩ :=
      fs.dataBitmap.dealloc_allocated store ((fs.dataBitmap.mem_allocated).mp hm).1
    obtain ⟨s₁, h₁, heq, hfr₁⟩ := hok hm
    have huse : fs.dataInUse s₁ = (fs.dataInUse store).erase b := by
      rw [dataInUse, heq, Finset.image_erase (add_left_injective _), Nat.sub_add_cancel hb,
        dataInUse]
    have hfr₁' : ∀ c, s₁ c ≠ store c → fs.InDataBitmap c := fun c hc ↦ by
      by_contra h
      exact hc (hfr₁ c (by unfold InDataBitmap at h; omega))
    obtain ⟨s₂, h₂, huse₂, hfr₂⟩ := runStore_deallocLoop rest s₁ (List.nodup_cons.mp hnd).2
      fun c hc ↦ huse ▸ Finset.mem_erase.mpr ⟨fun h ↦ (List.nodup_cons.mp hnd).1 (h ▸ hc),
        hin c (List.mem_cons_of_mem _ hc)⟩
    refine ⟨s₂, ?_, ?_, fun c hc ↦ ?_⟩
    · simp only [Inode.deallocLoop, deallocData, BlockIo.bind_eq]
      rw [BlockIo.runStore_bind_of_ok _ h₁, h₂]
    · rw [huse₂, huse, List.toFinset_cons, Finset.sdiff_insert, Finset.erase_sdiff_comm]
    · rcases changed_of_trans s₁ hc with h | h
      exacts [hfr₁' c h, hfr₂ c h]

/-! ### `Inode::increase_size` -/

/-- What `Inode::increase_size` leaves, from the inode `d` in `store` to `d'` in `store'`: the
size raised to `newSize` if that is larger, the blocks of `d` followed by `newBlocks`, which were
free data blocks and are now marked in use, the bytes below the old size as they were, and
nothing written but the data bitmap and blocks of `d'`. -/
structure Increased (fs : EasyFileSystem) (d : DiskInode) (store : Nat → Block) (newSize : Nat)
    (newBlocks : List Nat) (d' : DiskInode) (store' : Nat → Block) : Prop where
  size_eq : d'.size = max d.size newSize
  type_eq : d'.type_ = d.type_
  addressed_eq : d'.addressed store' = d.addressed store ++ newBlocks
  fresh : ∀ b ∈ newBlocks, fs.dataAreaStartBlock ≤ b ∧ b ∉ fs.dataInUse store
  dataInUse_eq : fs.dataInUse store' = fs.dataInUse store ∪ newBlocks.toFinset
  bytes : ∀ j < d.size, d'.byteAt store' j = d.byteAt store j
  frame : ∀ b, store' b ≠ store b → fs.InDataBitmap b ∨ b ∈ d'.addressed store'

/-- `Inode::increase_size` on an owned inode, when the new size fits the index and `u32` and the
data bitmap has the blocks it needs. -/
theorem runStore_inode_increaseSize (hwf : fs.WellFormed) {d : DiskInode} (hd : fs.Owned store d)
    {newSize : Nat} (hnew : newSize < 2 ^ 32) (hmax : DiskInode.dataBlocksOf newSize ≤ maxDataBlocks)
    (hfree : (fs.dataBitmap.allocated store).card + d.blocksNumNeeded newSize ≤
      fs.dataBitmap.maximum) :
    ∃ newBlocks d' store', (Inode.increaseSize fs newSize d).runStore store = .ok (d', store') ∧
      Increased fs d store newSize newBlocks d' store' ∧ fs.Owned store' d' := by
  unfold Inode.increaseSize
  split_ifs with hlt
  · exact ⟨[], d, store, rfl, ⟨by omega, rfl, by simp, by simp, by simp, fun _ _ ↦ rfl,
      fun _ h ↦ absurd rfl h⟩, hd⟩
  obtain ⟨blocks, s₁, h₁, hlen, hnd, hnew', huse₁, -, hfr₁⟩ :=
    runStore_allocDataLoop (d.blocksNumNeeded newSize) [] store hfree
  obtain ⟨haddr, hbytes⟩ := hd.view_eq hwf hfr₁
  have hndall : (d.addressed s₁ ++ blocks).Nodup := by
    rw [haddr]
    exact List.nodup_append.mpr ⟨hd.nodup, hnd, fun b hb hb' ↦ (hnew' b hb').2.2 (hd.inUse b hb)⟩
  obtain ⟨d', s₂, h₂, hg⟩ := DiskInode.runStore_increaseSize hd.valid (by omega) hnew hmax s₁
    hlen (fun b hb ↦ by have := hwf.dataArea_le; have := hnew' b hb; omega) hndall
  have haddr' : d'.addressed s₂ = d.addressed store ++ blocks := by rw [hg.addressed_eq, haddr]
  have hnd' : (d'.addressed s₂).Nodup := by rw [hg.addressed_eq]; exact hndall
  have hdata : ∀ b ∈ d'.addressed s₂, fs.dataAreaStartBlock ≤ b := fun b hb ↦ by
    rw [haddr'] at hb
    rcases List.mem_append.mp hb with hb | hb
    exacts [hd.dataArea_le hb, (hnew' b hb).1]
  have huse₂ : fs.dataInUse s₂ = fs.dataInUse store ∪ blocks.toFinset := by
    rw [← huse₁]
    exact dataInUse_congr fun b hb ↦ by_contra fun hne ↦ not_inDataBitmap hwf
      (hdata b (DiskInode.mem_blocksUpTo_of_mem_indexBlocksUpTo (hg.frame b hne))) hb
  refine ⟨blocks, d', s₂, ?_, ⟨by rw [hg.size_eq]; omega, hg.type_eq, haddr',
    fun b hb ↦ ⟨(hnew' b hb).1, (hnew' b hb).2.2⟩, huse₂,
    fun j hj ↦ (hg.byteAt_eq (by omega) hnd' hj).trans (hbytes j hj), fun b hb ↦ ?_⟩,
    ⟨hg.valid, by rw [DiskInode.dataBlocks, hg.size_eq]; exact hmax, hnd', fun b hb ↦ ?_⟩⟩
  · simp only [BlockIo.bind_eq]
    rw [BlockIo.runStore_bind_of_ok _ h₁, List.nil_append, h₂]
  · rcases changed_of_trans s₁ hb with h | h
    exacts [.inl (hfr₁ b h),
      .inr (DiskInode.mem_blocksUpTo_of_mem_indexBlocksUpTo (hg.frame b h))]
  · rw [huse₂]
    rw [haddr'] at hb
    rcases List.mem_append.mp hb with hb | hb
    exacts [Finset.mem_union_left _ (hd.inUse b hb),
      Finset.mem_union_right _ (List.mem_toFinset.mpr hb)]

end EasyFileSystem

end Rcore.EasyFs
