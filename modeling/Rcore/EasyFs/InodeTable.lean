import Rcore.EasyFs.Allocation

/-!
# The inode table and the filesystem invariant

An inode id names a bit of the inode bitmap and a record of the inode table, four records of
128 bytes to a block (`get_disk_inode_pos`). `diskInode` reads the record of an inode from the
block array and `setDiskInode` rewrites it, as `modify_disk_inode` does once its closure returns.
A record write leaves every other record, also one that shares its block
(`diskInode_setDiskInode`).

`Inv` is what the filesystem keeps of its allocated inodes: each record is owned, its blocks
distinct data blocks marked in the data bitmap, and no block is addressed by two inodes. `Step`
says once what an operation on one inode may do to the array, and `NewInode` what `create` does
to the inode it allocates; `Inv.step` and `Inv.newInode` derive that the invariant holds
afterwards, and `Step.view_eq` that every other allocated inode reads as it did.
-/

set_option autoImplicit false
set_option relaxedAutoImplicit false

namespace Rcore.EasyFs

namespace DiskInode

theorem length_toBytes {d : DiskInode} (h : d.Valid) : d.toBytes.length = diskInodeSize := by
  simp [toBytes, toWords, h.2.1, inodeDirectCount, diskInodeSize]

theorem addressed_of_size_eq_zero {d : DiskInode} (h : d.size = 0) (store : Nat → Block) :
    d.addressed store = [] := by
  simp [addressed, dataBlocks, dataBlocksOf, h, blocksUpTo, blockSz]

end DiskInode

namespace EasyFileSystem

variable (fs : EasyFileSystem)

/-- The record of inode `inodeId`, read from its position in the inode table. -/
def diskInode (store : Nat → Block) (inodeId : Nat) : DiskInode :=
  DiskInode.ofBytes ((store (fs.getDiskInodePos inodeId).1).slice (fs.getDiskInodePos inodeId).2
    diskInodeSize)

/-- The array with the record of inode `inodeId` rewritten to `d`. -/
def setDiskInode (store : Nat → Block) (inodeId : Nat) (d : DiskInode) : Nat → Block :=
  Function.update store (fs.getDiskInodePos inodeId).1
    ((store (fs.getDiskInodePos inodeId).1).write (fs.getDiskInodePos inodeId).2 diskInodeSize
      d.toBytes)

/-- The inodes in use: the set bits of the inode bitmap. -/
def inodes (store : Nat → Block) : Finset Nat := fs.inodeBitmap.allocated store

/-- A block of the inode bitmap. -/
def InInodeBitmap (b : Nat) : Prop :=
  fs.inodeBitmap.startBlockId ≤ b ∧ b < fs.inodeBitmap.startBlockId + fs.inodeBitmap.blocks

variable {fs}

theorem getDiskInodePos_snd_add (inodeId : Nat) :
    (fs.getDiskInodePos inodeId).2 + diskInodeSize ≤ blockSz := by
  simp only [getDiskInodePos, blockSz, diskInodeSize]
  omega

theorem getDiskInodePos_injective {x y : Nat} (h : fs.getDiskInodePos x = fs.getDiskInodePos y) :
    x = y := by
  simp only [getDiskInodePos, blockSz, diskInodeSize, Prod.mk.injEq] at h
  omega

/-- The record of an inode of the bitmap lies in the inode table, before the data bitmap. -/
theorem getDiskInodePos_lt (hwf : fs.WellFormed) {x : Nat} (hx : x < fs.inodeBitmap.maximum) :
    fs.inodeBitmap.startBlockId + fs.inodeBitmap.blocks ≤ (fs.getDiskInodePos x).1 ∧
      (fs.getDiskInodePos x).1 < fs.dataBitmap.startBlockId := by
  have h₁ := hwf.inodeBitmap_le
  have h₂ := hwf.inodeArea_le
  simp only [getDiskInodePos, Bitmap.maximum, blockBits_eq, blockSz, diskInodeSize]
    at h₂ hx ⊢
  omega

theorem lt_of_mem_inodes {store : Nat → Block} {x : Nat} (hx : x ∈ fs.inodes store) :
    x < fs.inodeBitmap.maximum :=
  (fs.inodeBitmap.mem_allocated.mp hx).1

theorem diskInode_congr {store store' : Nat → Block} {x : Nat}
    (h : store' (fs.getDiskInodePos x).1 = store (fs.getDiskInodePos x).1) :
    fs.diskInode store' x = fs.diskInode store x := by
  rw [diskInode, diskInode, h]

theorem inodes_congr {store store' : Nat → Block} (h : ∀ b, fs.InInodeBitmap b → store' b = store b) :
    fs.inodes store' = fs.inodes store :=
  fs.inodeBitmap.allocated_congr fun b h₁ h₂ ↦ h b ⟨h₁, h₂⟩

theorem setDiskInode_of_ne (store : Nat → Block) (x : Nat) (d : DiskInode) {b : Nat}
    (hb : b ≠ (fs.getDiskInodePos x).1) : fs.setDiskInode store x d b = store b :=
  Function.update_noteq hb _ _

/-- A record write rewrites its record and leaves every other one. -/
theorem diskInode_setDiskInode (store : Nat → Block) {d : DiskInode} (hd : d.Valid) (x y : Nat) :
    fs.diskInode (fs.setDiskInode store x d) y = if y = x then d else fs.diskInode store y := by
  split_ifs with hyx
  · subst hyx
    rw [diskInode, setDiskInode, Function.update_same,
      Block.slice_write_self _ _ (getDiskInodePos_snd_add y) (DiskInode.length_toBytes hd),
      DiskInode.ofBytes_toBytes hd]
  · by_cases hb : (fs.getDiskInodePos y).1 = (fs.getDiskInodePos x).1
    · have hoff : (fs.getDiskInodePos y).2 + diskInodeSize ≤ (fs.getDiskInodePos x).2 ∨
          (fs.getDiskInodePos x).2 + diskInodeSize ≤ (fs.getDiskInodePos y).2 := by
        have hne := mt (@getDiskInodePos_injective fs y x) hyx
        simp only [getDiskInodePos, blockSz, diskInodeSize, Prod.mk.injEq] at hb hne ⊢
        omega
      rw [diskInode, diskInode, setDiskInode, hb, Function.update_same,
        Block.slice_write_of_disjoint _ _ hoff]
    · exact diskInode_congr (setDiskInode_of_ne store x d hb)

end EasyFileSystem

namespace Inode

variable {fs : EasyFileSystem}

/-- `read_disk_inode` hands the closure the record of the inode. -/
theorem runStore_readDiskInode {V : Type} (x : Nat) (f : DiskInode → BlockIo V)
    (store : Nat → Block) :
    ((ofInodeId fs x).readDiskInode f).runStore store =
      (f (fs.diskInode store x)).runStore store := by
  simp only [readDiskInode, ofInodeId, new]
  rw [BlockIo.runStore_read _ _ _ _ _ (EasyFileSystem.getDiskInodePos_snd_add x)]
  rfl

/-- `modify_disk_inode` returns when its closure does, and then the record of the inode is the
one the closure left, written over the array the closure left. -/
theorem runStore_modifyDiskInode {V : Type} (x : Nat) (f : DiskInode → BlockIo (DiskInode × V))
    (store store' : Nat → Block) (v : V) :
    ((ofInodeId fs x).modifyDiskInode f).runStore store = .ok (v, store') ↔
      ∃ d' store₁, (f (fs.diskInode store x)).runStore store = .ok ((d', v), store₁) ∧
        store' = fs.setDiskInode store₁ x d' := by
  simp only [modifyDiskInode, ofInodeId, new]
  rw [BlockIo.runStore_modify _ _ _ _ _ (EasyFileSystem.getDiskInodePos_snd_add x)]
  simp only [BlockIo.bind_eq, BlockIo.pure_eq, BlockIo.runStore_bind]
  rw [show DiskInode.ofBytes ((store (fs.getDiskInodePos x).1).slice (fs.getDiskInodePos x).2
    diskInodeSize) = fs.diskInode store x from rfl]
  rcases (f (fs.diskInode store x)).runStore store with e | ⟨⟨d', v'⟩, s₁⟩
  · simp
  · simp only [BlockIo.runStore_pure, Except.ok.injEq, Prod.mk.injEq, EasyFileSystem.setDiskInode]
    constructor
    · rintro ⟨rfl, rfl⟩
      exact ⟨d', s₁, ⟨⟨rfl, rfl⟩, rfl⟩, rfl⟩
    · rintro ⟨d'', s₂, ⟨⟨rfl, rfl⟩, rfl⟩, rfl⟩
      exact ⟨rfl, rfl⟩

end Inode

namespace EasyFileSystem

/-- What the filesystem keeps of its allocated inodes: the layout is sound, each record is owned,
and no block is addressed by two inodes. -/
structure Inv (fs : EasyFileSystem) (store : Nat → Block) : Prop where
  wf : fs.WellFormed
  owned : ∀ x ∈ fs.inodes store, fs.Owned store (fs.diskInode store x)
  disjoint : ∀ x ∈ fs.inodes store, ∀ y ∈ fs.inodes store, x ≠ y →
    ∀ b ∈ (fs.diskInode store x).addressed store, b ∉ (fs.diskInode store y).addressed store

/-- What an operation on inode `x` leaves, from `store` to `store'`, with `d'` its new record:
the inode bitmap and every other record as they were, `d'` owned, in place and of the old type,
every block written a block of the data bitmap, the block of the record or a block of `x` before
or after, the blocks of `d'` blocks of `x` or free ones, and every block in use that is not of `x`
still in use. -/
structure Step (fs : EasyFileSystem) (store : Nat → Block) (x : Nat) (d' : DiskInode)
    (store' : Nat → Block) : Prop where
  inodes_eq : fs.inodes store' = fs.inodes store
  record : fs.diskInode store' x = d'
  type_eq : d'.type_ = (fs.diskInode store x).type_
  records : ∀ y ∈ fs.inodes store, y ≠ x → fs.diskInode store' y = fs.diskInode store y
  owned : fs.Owned store' d'
  frame : ∀ b, store' b ≠ store b → fs.InDataBitmap b ∨ b = (fs.getDiskInodePos x).1 ∨
    b ∈ (fs.diskInode store x).addressed store ∨ b ∈ d'.addressed store'
  fresh : ∀ b ∈ d'.addressed store',
    b ∈ (fs.diskInode store x).addressed store ∨ b ∉ fs.dataInUse store
  inUse : ∀ b ∈ fs.dataInUse store, b ∉ (fs.diskInode store x).addressed store →
    b ∈ fs.dataInUse store'

/-- What `create` does to the inode it allocates, from `store` to `store'`: inode `y` was free
and is now in use, its record is empty and every other record as it was, and nothing is written
but the inode bitmap and the block of that record. -/
structure NewInode (fs : EasyFileSystem) (store : Nat → Block) (y : Nat) (store' : Nat → Block) :
    Prop where
  fresh : y ∉ fs.inodes store
  inodes_eq : fs.inodes store' = insert y (fs.inodes store)
  size_eq : (fs.diskInode store' y).size = 0
  records : ∀ z, z ≠ y → fs.diskInode store' z = fs.diskInode store z
  frame : ∀ b, store' b ≠ store b → fs.InInodeBitmap b ∨ b = (fs.getDiskInodePos y).1

section Inv

variable {fs : EasyFileSystem} {store store' : Nat → Block} {x : Nat} {d' : DiskInode}

/-- Writes below the data area leave what an owned inode reads. -/
theorem Owned.view_of_lt {d : DiskInode} (h : fs.Owned store d)
    (hs : ∀ b, store' b ≠ store b → b < fs.dataAreaStartBlock) :
    d.addressed store' = d.addressed store ∧ ∀ j < d.size, d.byteAt store' j = d.byteAt store j :=
  DiskInode.view_congr fun b hb ↦ by_contra fun hne ↦
    Nat.not_le.mpr (hs b hne) (h.dataArea_le hb)

/-- The write-back of a record leaves what an owned inode reads. -/
theorem Owned.view_setDiskInode (hwf : fs.WellFormed) {d : DiskInode} (h : fs.Owned store d)
    {y : Nat} (hy : y < fs.inodeBitmap.maximum) (d' : DiskInode) :
    d.addressed (fs.setDiskInode store y d') = d.addressed store ∧
      ∀ j < d.size, d.byteAt (fs.setDiskInode store y d') j = d.byteAt store j :=
  h.view_of_lt fun b hb ↦ by
    have hb' : b = (fs.getDiskInodePos y).1 :=
      by_contra fun hne ↦ hb (setDiskInode_of_ne store y d' hne)
    have := (getDiskInodePos_lt hwf hy).2
    have := hwf.dataBitmap_le
    omega

/-- The write-back of a record leaves the data blocks in use. -/
theorem dataInUse_setDiskInode (hwf : fs.WellFormed) {y : Nat} (hy : y < fs.inodeBitmap.maximum)
    (d : DiskInode) : fs.dataInUse (fs.setDiskInode store y d) = fs.dataInUse store :=
  dataInUse_congr fun b hb ↦ setDiskInode_of_ne store y d fun h ↦ by
    have := (getDiskInodePos_lt hwf hy).2
    unfold InDataBitmap at hb
    omega

/-- After a step on `x`, every other allocated inode reads as it did: its record, its blocks and
its bytes. -/
theorem Inv.step_view (hinv : fs.Inv store) (hx : x ∈ fs.inodes store)
    (hs : fs.Step store x d' store') {y : Nat} (hy : y ∈ fs.inodes store) (hyx : y ≠ x) :
    fs.diskInode store' y = fs.diskInode store y ∧
      (fs.diskInode store y).addressed store' = (fs.diskInode store y).addressed store ∧
      ∀ j < (fs.diskInode store y).size,
        (fs.diskInode store y).byteAt store' j = (fs.diskInode store y).byteAt store j := by
  refine ⟨hs.records y hy hyx, DiskInode.view_congr fun b hb ↦ by_contra fun hne ↦ ?_⟩
  have hdata := (hinv.owned y hy).dataArea_le hb
  have hold : b ∉ (fs.diskInode store x).addressed store := fun h ↦
    hinv.disjoint x hx y hy (Ne.symm hyx) b h hb
  rcases hs.frame b hne with h | h | h | h
  · exact not_inDataBitmap hinv.wf hdata h
  · have := (getDiskInodePos_lt hinv.wf (lt_of_mem_inodes hx)).2
    have := hinv.wf.dataBitmap_le
    omega
  · exact hold h
  · exact (hs.fresh b h).elim hold fun h' ↦ h' ((hinv.owned y hy).inUse b hb)

/-- A block an inode addresses after a step on `x` it addressed before, or it is a block of `x`
that was free. -/
theorem Inv.mem_addressed_step (hinv : fs.Inv store) (hx : x ∈ fs.inodes store)
    (hs : fs.Step store x d' store') {y b : Nat} (hy : y ∈ fs.inodes store)
    (hb : b ∈ (fs.diskInode store' y).addressed store') :
    b ∈ (fs.diskInode store y).addressed store ∨ y = x ∧ b ∉ fs.dataInUse store := by
  by_cases hyx : y = x
  · subst hyx
    rw [hs.record] at hb
    exact (hs.fresh b hb).imp_right fun h ↦ ⟨rfl, h⟩
  · obtain ⟨hrec, haddr, -⟩ := hinv.step_view hx hs hy hyx
    rw [hrec, haddr] at hb
    exact .inl hb

theorem Inv.step (hinv : fs.Inv store) (hx : x ∈ fs.inodes store)
    (hs : fs.Step store x d' store') : fs.Inv store' := by
  refine ⟨hinv.wf, fun y hy ↦ ?_, fun y hy z hz hyz b hb hb' ↦ ?_⟩
  · rw [hs.inodes_eq] at hy
    by_cases hyx : y = x
    · rw [hyx, hs.record]
      exact hs.owned
    · obtain ⟨hrec, haddr, -⟩ := hinv.step_view hx hs hy hyx
      have ho := hinv.owned y hy
      rw [hrec]
      refine ⟨ho.valid, ho.dataBlocks_le, by rw [haddr]; exact ho.nodup, fun b hb ↦ ?_⟩
      rw [haddr] at hb
      exact hs.inUse b (ho.inUse b hb) fun hbx ↦ hinv.disjoint x hx y hy (Ne.symm hyx) b hbx hb
  · rw [hs.inodes_eq] at hy hz
    rcases hinv.mem_addressed_step hx hs hy hb with h₁ | ⟨rfl, h₁⟩ <;>
      rcases hinv.mem_addressed_step hx hs hz hb' with h₂ | ⟨rfl, h₂⟩
    · exact hinv.disjoint y hy z hz hyz b h₁ h₂
    · exact h₂ ((hinv.owned y hy).inUse b h₁)
    · exact h₁ ((hinv.owned z hz).inUse b h₂)
    · exact hyz rfl

/-- An operation on inode `x` that ends by writing its record `d'` back is a `Step`, when what it
did before, from `store` to `store₁`, wrote only the data bitmap and blocks of `x` before or
after, and left `d'` owned, with blocks of `x` or free ones, and every other block in use still
in use. -/
theorem Inv.step_setDiskInode (hinv : fs.Inv store) (hx : x ∈ fs.inodes store)
    {store₁ : Nat → Block} (hown : fs.Owned store₁ d') (htype : d'.type_ = (fs.diskInode store x).type_)
    (hframe : ∀ b, store₁ b ≠ store b → fs.InDataBitmap b ∨
      b ∈ (fs.diskInode store x).addressed store ∨ b ∈ d'.addressed store₁)
    (hfresh : ∀ b ∈ d'.addressed store₁,
      b ∈ (fs.diskInode store x).addressed store ∨ b ∉ fs.dataInUse store)
    (huse : ∀ b ∈ fs.dataInUse store, b ∉ (fs.diskInode store x).addressed store →
      b ∈ fs.dataInUse store₁) :
    fs.Step store x d' (fs.setDiskInode store₁ x d') := by
  have hwf := hinv.wf
  have hpos := getDiskInodePos_lt hwf (lt_of_mem_inodes hx)
  have hbm := hwf.dataBitmap_le
  -- the operation wrote the data bitmap and the data area, the write-back the inode table
  have hhigh : ∀ b, store₁ b ≠ store b → fs.dataBitmap.startBlockId ≤ b := fun b hb ↦ by
    rcases hframe b hb with h | h | h
    · exact h.1
    · have := (hinv.owned x hx).dataArea_le h; omega
    · have := hown.dataArea_le h; omega
  have hset : ∀ b, fs.setDiskInode store₁ x d' b ≠ store₁ b → b = (fs.getDiskInodePos x).1 :=
    fun b hb ↦ by_contra fun hne ↦ hb (setDiskInode_of_ne store₁ x d' hne)
  have hview := (hown.view_of_lt fun b hb ↦ by have := hset b hb; omega).1
  have huse₁ : fs.dataInUse (fs.setDiskInode store₁ x d') = fs.dataInUse store₁ :=
    dataInUse_setDiskInode hwf (lt_of_mem_inodes hx) d'
  have hkeep : ∀ b < fs.dataBitmap.startBlockId, b ≠ (fs.getDiskInodePos x).1 →
      fs.setDiskInode store₁ x d' b = store b := fun b hb hne ↦
    (setDiskInode_of_ne store₁ x d' hne).trans
      (by_contra fun h ↦ absurd (hhigh b h) (by omega))
  refine ⟨inodes_congr fun b hb ↦ hkeep b (by unfold InInodeBitmap at hb; omega)
      (by unfold InInodeBitmap at hb; omega),
    by rw [diskInode_setDiskInode _ hown.valid, if_pos rfl], htype, fun y hy hyx ↦ ?_,
    ⟨hown.valid, hown.dataBlocks_le, by rw [hview]; exact hown.nodup,
      fun b hb ↦ by rw [huse₁]; rw [hview] at hb; exact hown.inUse b hb⟩,
    fun b hb ↦ ?_, fun b hb ↦ by rw [hview] at hb; exact hfresh b hb,
    fun b hb hbx ↦ by rw [huse₁]; exact huse b hb hbx⟩
  · have hposy := (getDiskInodePos_lt hwf (lt_of_mem_inodes hy)).2
    rw [diskInode_setDiskInode _ hown.valid, if_neg hyx]
    exact diskInode_congr (by_contra fun h ↦ absurd (hhigh _ h) (by omega))
  · rw [hview]
    rcases changed_of_trans store₁ hb with h | h
    · exact (hframe b h).elim .inl fun h ↦ .inr (.inr h)
    · exact .inr (.inl (hset b h))

/-- The allocation of `create` writes below the data bitmap. -/
theorem NewInode.lt_dataBitmap (hwf : fs.WellFormed) {y : Nat} (hn : fs.NewInode store y store')
    (b : Nat) (hb : store' b ≠ store b) : b < fs.dataBitmap.startBlockId := by
  rcases hn.frame b hb with h | rfl
  · have := hwf.inodeBitmap_le
    have := hwf.inodeArea_le
    simp only [blockSz, diskInodeSize] at this
    unfold InInodeBitmap at h
    omega
  · exact (getDiskInodePos_lt hwf
      (lt_of_mem_inodes (by rw [hn.inodes_eq]; exact Finset.mem_insert_self _ _))).2

theorem NewInode.dataBitmap_allocated (hwf : fs.WellFormed) {y : Nat}
    (hn : fs.NewInode store y store') :
    fs.dataBitmap.allocated store' = fs.dataBitmap.allocated store :=
  fs.dataBitmap.allocated_congr fun b h₁ _ ↦
    by_contra fun hne ↦ absurd (hn.lt_dataBitmap hwf b hne) (by omega)

/-- The allocation of `create` leaves what an owned inode reads. -/
theorem NewInode.view (hwf : fs.WellFormed) {y : Nat} (hn : fs.NewInode store y store')
    {d : DiskInode} (h : fs.Owned store d) :
    d.addressed store' = d.addressed store ∧ ∀ j < d.size, d.byteAt store' j = d.byteAt store j :=
  h.view_of_lt fun b hb ↦ by
    have := hn.lt_dataBitmap hwf b hb
    have := hwf.dataBitmap_le
    omega

/-- `alloc_inode` returns only the least clear bit of the inode bitmap, which it sets, writing
nothing outside the inode bitmap. -/
theorem allocInode_ok {y : Nat} {store₁ : Nat → Block}
    (h : fs.allocInode.runStore store = .ok (y, store₁)) :
    y < fs.inodeBitmap.maximum ∧ y ∉ fs.inodes store ∧ (∀ j < y, j ∈ fs.inodes store) ∧
      fs.inodes store₁ = insert y (fs.inodes store) ∧
      ∀ b, store₁ b ≠ store b → fs.InInodeBitmap b := by
  obtain ⟨r, s₁, hrun, -, -, hsome, hframe⟩ := fs.inodeBitmap.alloc_allocated store
  simp only [allocInode, BlockIo.bind_eq] at h
  rw [BlockIo.runStore_bind_of_ok _ hrun] at h
  cases r with
  | none => cases h
  | some m =>
    obtain ⟨rfl, rfl⟩ := Prod.mk.inj (Except.ok.inj h)
    obtain ⟨hm, hnot, hleast, heq⟩ := hsome _ rfl
    exact ⟨hm, hnot, hleast, heq, fun b hb ↦ by
      by_contra hn
      exact hb (hframe b (by unfold InInodeBitmap at hn; omega))⟩

/-- `alloc_inode` returns when the inode bitmap has a clear bit. -/
theorem runStore_allocInode (hfree : (fs.inodes store).card < fs.inodeBitmap.maximum) :
    ∃ y store₁, fs.allocInode.runStore store = .ok (y, store₁) := by
  obtain ⟨r, s₁, hrun, hnone, -⟩ := fs.inodeBitmap.alloc_allocated store
  cases r with
  | none =>
    have := congrArg Finset.card (hnone.mp rfl)
    rw [Finset.card_range] at this
    exact absurd hfree (by rw [inodes, this]; exact lt_irrefl _)
  | some y =>
    refine ⟨y, s₁, ?_⟩
    simp only [allocInode, BlockIo.bind_eq]
    rw [BlockIo.runStore_bind_of_ok _ hrun]
    rfl

/-- The initialisation of a record in place, as `EasyFileSystem::create` does for the root and
`Inode::create` for a new inode. -/
theorem runStore_initRecord (y : Nat) (type_ : DiskInodeType) (store : Nat → Block) :
    (BlockIo.modify (fs.getDiskInodePos y).1 (fs.getDiskInodePos y).2 diskInodeSize
        fun bytes ↦ pure (((DiskInode.ofBytes bytes).initializeAs type_).toBytes, ())).runStore store =
      .ok ((), fs.setDiskInode store y ((fs.diskInode store y).initializeAs type_)) := by
  rw [BlockIo.runStore_modify _ _ _ _ _ (getDiskInodePos_snd_add y)]
  rfl

/-- The allocation of `create`: an inode allocated and its record initialised. -/
theorem newInode_of_allocInode (hwf : fs.WellFormed) {y : Nat} {store₁ : Nat → Block}
    (h : fs.allocInode.runStore store = .ok (y, store₁)) (type_ : DiskInodeType) :
    fs.NewInode store y (fs.setDiskInode store₁ y ((fs.diskInode store₁ y).initializeAs type_)) := by
  obtain ⟨hy, hfresh, -, hinodes, hframe⟩ := allocInode_ok h
  have hvalid := DiskInode.valid_initializeAs (fs.diskInode store₁ y) type_
  have hbm := hwf.inodeBitmap_le
  have hpos : ∀ z, fs.inodeBitmap.startBlockId + fs.inodeBitmap.blocks ≤ (fs.getDiskInodePos z).1 :=
    fun z ↦ by simp only [getDiskInodePos, blockSz, diskInodeSize]; omega
  refine ⟨hfresh, ?_, by rw [diskInode_setDiskInode _ hvalid, if_pos rfl]; rfl,
    fun z hz ↦ ?_, fun b hb ↦ ?_⟩
  · rw [← hinodes]
    exact inodes_congr fun b hb ↦ setDiskInode_of_ne store₁ y _ fun h ↦ by
      unfold InInodeBitmap at hb
      have := hpos y
      omega
  · rw [diskInode_setDiskInode _ hvalid, if_neg hz]
    exact diskInode_congr (by_contra fun hne ↦ by
      have := hframe _ hne
      unfold InInodeBitmap at this
      have := hpos z
      omega)
  · rcases changed_of_trans store₁ hb with h | h
    · exact .inl (hframe b h)
    · exact .inr (by_contra fun hne ↦ h (setDiskInode_of_ne store₁ y _ hne))

/-- Allocating an inode and clearing its record keeps the invariant. -/
theorem Inv.newInode (hinv : fs.Inv store) {y : Nat} (hn : fs.NewInode store y store') :
    fs.Inv store' := by
  have hwf := hinv.wf
  have huse : fs.dataInUse store' = fs.dataInUse store := by
    rw [dataInUse, dataInUse, hn.dataBitmap_allocated hwf]
  have hempty : (fs.diskInode store' y).addressed store' = [] :=
    DiskInode.addressed_of_size_eq_zero hn.size_eq store'
  have hold : ∀ z ∈ fs.inodes store, fs.diskInode store' z = fs.diskInode store z ∧
      (fs.diskInode store z).addressed store' = (fs.diskInode store z).addressed store :=
    fun z hz ↦ ⟨hn.records z fun h ↦ hn.fresh (h ▸ hz), (hn.view hwf (hinv.owned z hz)).1⟩
  refine ⟨hwf, fun z hz ↦ ?_, fun z hz w hw hzw b hb hb' ↦ ?_⟩
  · rw [hn.inodes_eq, Finset.mem_insert] at hz
    rcases hz with rfl | hz
    · exact ⟨DiskInode.valid_ofBytes _, by simp [DiskInode.dataBlocks, DiskInode.dataBlocksOf,
        hn.size_eq, blockSz], by simp [hempty], by simp [hempty]⟩
    · obtain ⟨hrec, haddr⟩ := hold z hz
      have ho := hinv.owned z hz
      rw [hrec]
      refine ⟨ho.valid, ho.dataBlocks_le, by rw [haddr]; exact ho.nodup, fun b hb ↦ ?_⟩
      rw [huse]
      rw [haddr] at hb
      exact ho.inUse b hb
  · rw [hn.inodes_eq, Finset.mem_insert] at hz hw
    rcases hz with rfl | hz
    · simp [hempty] at hb
    rcases hw with rfl | hw
    · simp [hempty] at hb'
    rw [(hold z hz).1, (hold z hz).2] at hb
    rw [(hold w hw).1, (hold w hw).2] at hb'
    exact hinv.disjoint z hz w hw hzw b hb hb'

end Inv

end EasyFileSystem

end Rcore.EasyFs
