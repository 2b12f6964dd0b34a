import Rcore.EasyFs.InodeTable
import Rcore.EasyFs.InodeClear
import Rcore.EasyFs.Directory
import Rcore.EasyFs.InodeLimits

/-!
# The operations of `vfs.rs` on the filesystem

Each mutating operation of an `Inode` handle is a `Step` of the inode it works on: `write_at` and
`clear` of the handle's inode, and `create`, `link` and `unlink` of the directory, `create` after
it has allocated and cleared a fresh inode (`NewInode`). For each operation there are two
theorems. The first says what it does when it has the room it needs, and that it then returns:
`write_at` within the largest file and with the data blocks its growth takes, `clear` always.
The second holds of every run that returns, whatever its arguments, and is what the invariant of
the filesystem rests on: a run that returns had the room (`increaseSize_ok`, with the panics of
`InodeLimits`), so it is the run the first theorem describes.
-/

set_option autoImplicit false
set_option relaxedAutoImplicit false

namespace Rcore.EasyFs

namespace DiskInode

theorem totalBlocks_mono {size size' : Nat} (h : size ≤ size') :
    totalBlocks size ≤ totalBlocks size' := by
  have := dataBlocksOf_mono h
  simp only [totalBlocks, indirect1Bound, inodeDirectCount, inodeIndirect1Count_eq]
  split_ifs <;> omega

end DiskInode

namespace EasyFileSystem

variable {fs : EasyFileSystem} {store store' : Nat → Block}

theorem Owned.size_le {d : DiskInode} (h : fs.Owned store d) : d.size ≤ maxDataBlocks * blockSz := by
  have := h.dataBlocks_le
  simp only [DiskInode.dataBlocks, DiskInode.dataBlocksOf, maxDataBlocks_eq, blockSz] at this ⊢
  omega

/-- A write into data blocks of an owned inode keeps it owned and every block in use. -/
theorem Owned.written (hwf : fs.WellFormed) {d : DiskInode} (h : fs.Owned store d)
    {buf : List UInt8} {a b w : Nat} (hw : DiskInode.Written d store buf a b w store') :
    fs.Owned store' d ∧ fs.dataInUse store' = fs.dataInUse store ∧
      ∀ c, store' c ≠ store c → c ∈ d.addressed store := by
  have hframe : ∀ c, store' c ≠ store c → c ∈ d.addressed store := fun c hc ↦ by
    obtain ⟨i, hi, rfl⟩ := hw.frame c hc
    exact DiskInode.blockAt_mem_blocksUpTo hi
  have huse : fs.dataInUse store' = fs.dataInUse store := dataInUse_congr fun c hc ↦
    by_contra fun hne ↦ not_inDataBitmap hwf (h.dataArea_le (hframe c hne)) hc
  refine ⟨⟨h.valid, h.dataBlocks_le, by rw [hw.addressed_eq]; exact h.nodup, fun c hc ↦ ?_⟩,
    huse, hframe⟩
  rw [huse]
  rw [hw.addressed_eq] at hc
  exact h.inUse c hc

variable {d d₁ : DiskInode} {store₁ : Nat → Block}

/-- A run of `Inode::increase_size` that returns had what it needed: a new size within the
largest inode, and a clear bit of the data bitmap for every block it allocated. -/
theorem increaseSize_ok (hd : fs.Owned store d) {newSize : Nat}
    (h : (Inode.increaseSize fs newSize d).runStore store = .ok (d₁, store₁)) :
    DiskInode.dataBlocksOf newSize ≤ maxDataBlocks ∧
      (fs.dataBitmap.allocated store).card + d.blocksNumNeeded newSize ≤
        fs.dataBitmap.maximum := by
  unfold Inode.increaseSize at h
  split_ifs at h with hlt
  · have hmono := DiskInode.totalBlocks_mono hlt.le
    refine ⟨(DiskInode.dataBlocksOf_mono hlt.le).trans hd.dataBlocks_le, ?_⟩
    have := card_allocated_le fs.dataBitmap store
    simp only [DiskInode.blocksNumNeeded]
    omega
  · obtain ⟨v, s₀, h₁, h₂⟩ := BlockIo.runStore_bind_eq_ok h
    exact ⟨DiskInode.increaseSize_ok hd.dataBlocks_le h₂, card_add_le_of_allocDataLoop _ _ _ h₁⟩

/-- A run of `Inode::increase_size` that returns is the one `runStore_inode_increaseSize`
describes. -/
theorem increased_of_ok (hwf : fs.WellFormed) (hd : fs.Owned store d) {newSize : Nat}
    (hnew : newSize < 2 ^ 32)
    (h : (Inode.increaseSize fs newSize d).runStore store = .ok (d₁, store₁)) :
    ∃ newBlocks, Increased fs d store newSize newBlocks d₁ store₁ ∧ fs.Owned store₁ d₁ := by
  obtain ⟨hmax, hfree⟩ := increaseSize_ok hd h
  obtain ⟨newBlocks, d', s', h', hinc, hown⟩ := runStore_inode_increaseSize hwf hd hnew hmax hfree
  rw [h'] at h
  obtain ⟨rfl, rfl⟩ := Prod.mk.inj (Except.ok.inj h)
  exact ⟨newBlocks, hinc, hown⟩

variable {x : Nat}

/-- Growing inode `x` and then writing into its data blocks, with its record written back, is a
step of `x`. -/
theorem Inv.step_increased_written (hinv : fs.Inv store) (hx : x ∈ fs.inodes store)
    {newSize : Nat} {newBlocks : List Nat} {s₂ : Nat → Block} {buf : List UInt8} {a b w : Nat}
    (hinc : Increased fs (fs.diskInode store x) store newSize newBlocks d₁ store₁)
    (hown : fs.Owned store₁ d₁) (hw : DiskInode.Written d₁ store₁ buf a b w s₂) :
    fs.Step store x d₁ (fs.setDiskInode s₂ x d₁) := by
  obtain ⟨hown₂, huse₂, hframe₂⟩ := hown.written hinv.wf hw
  refine hinv.step_setDiskInode hx hown₂ hinc.type_eq (fun c hc ↦ ?_) (fun c hc ↦ ?_)
    fun c hc _ ↦ ?_
  · rw [hw.addressed_eq]
    rcases changed_of_trans store₁ hc with h | h
    · exact (hinc.frame c h).imp_right .inr
    · exact .inr (.inr (hframe₂ c h))
  · rw [hw.addressed_eq, hinc.addressed_eq] at hc
    rcases List.mem_append.mp hc with h | h
    exacts [.inl h, .inr (hinc.fresh c h).2]
  · rw [huse₂, hinc.dataInUse_eq]
    exact Finset.mem_union_left _ hc

/-- A call on inode `x`, from `store` to `store'`, allocates exactly what `x` gains and frees
exactly what it drops: the data blocks in use lose the blocks `x` addressed and gain those it
addresses after the call. -/
def Accounts (fs : EasyFileSystem) (store : Nat → Block) (x : Nat) (store' : Nat → Block) :
    Prop :=
  fs.dataInUse store' = fs.dataInUse store \ ((fs.diskInode store x).addressed store).toFinset ∪
    ((fs.diskInode store' x).addressed store').toFinset

/-- Growing inode `x` and then writing into its data blocks, with its record written back,
allocates exactly the blocks it gains. -/
theorem Inv.accounts_increased_written (hinv : fs.Inv store) (hx : x ∈ fs.inodes store)
    {newSize : Nat} {newBlocks : List Nat} {s₂ : Nat → Block} {buf : List UInt8} {a b w : Nat}
    (hinc : Increased fs (fs.diskInode store x) store newSize newBlocks d₁ store₁)
    (hown : fs.Owned store₁ d₁) (hw : DiskInode.Written d₁ store₁ buf a b w s₂) :
    fs.Accounts store x (fs.setDiskInode s₂ x d₁) := by
  have hwf := hinv.wf
  have hxlt := lt_of_mem_inodes hx
  obtain ⟨hown₂, huse₂, -⟩ := hown.written hwf hw
  rw [Accounts, (hinv.step_increased_written hx hinc hown hw).record,
    dataInUse_setDiskInode hwf hxlt, huse₂, hinc.dataInUse_eq,
    (hown₂.view_setDiskInode hwf hxlt d₁).1, hw.addressed_eq, hinc.addressed_eq,
    List.toFinset_append, ← Finset.union_assoc, Finset.sdiff_union_of_subset]
  exact fun c hc ↦ (hinv.owned x hx).inUse c (List.mem_toFinset.mp hc)

end EasyFileSystem

namespace Inode

open EasyFileSystem

variable {fs : EasyFileSystem} {store store' : Nat → Block} {x : Nat}

/-! ### `read_at` -/

/-- `Inode::read_at` on an owned record: the bytes from `offset` up to the end of the buffer or of
the file, copied to the front of the buffer, and their count. -/
theorem runStore_readAt (hd : fs.Owned store (fs.diskInode store x)) (offset : Nat)
    (buf : List UInt8) :
    ((ofInodeId fs x).readAt offset buf).runStore store =
      .ok ((min (offset + buf.length) (fs.diskInode store x).size - offset,
        copyFromSlice buf 0 ((fs.diskInode store x).bytesIn store offset
          (min (offset + buf.length) (fs.diskInode store x).size))), store) := by
  rw [readAt, runStore_readDiskInode, DiskInode.runStore_readAt _ _ hd.size_le]

/-! ### `write_at` -/

/-- `Inode::write_at` on an allocated inode, for a write that starts inside the largest file and
ends within it, when the data bitmap has the blocks its growth takes: it returns the length of
the buffer, the size grows to cover the write, the written bytes hold the buffer, and every
other byte below the old size reads as before. -/
theorem runStore_writeAt (hinv : fs.Inv store) (hx : x ∈ fs.inodes store) {offset : Nat}
    (buf : List UInt8) (hoff : offset < maxDataBlocks * blockSz)
    (hend : offset + buf.length ≤ maxDataBlocks * blockSz)
    (hfree : (fs.dataBitmap.allocated store).card +
      (fs.diskInode store x).blocksNumNeeded (offset + buf.length) ≤ fs.dataBitmap.maximum) :
    ∃ store', ((ofInodeId fs x).writeAt fs offset buf).runStore store = .ok (buf.length, store') ∧
      fs.Step store x (fs.diskInode store' x) store' ∧
      (fs.diskInode store' x).size = max (fs.diskInode store x).size (offset + buf.length) ∧
      (fs.diskInode store' x).bytesIn store' offset (offset + buf.length) = buf ∧
      ∀ j < (fs.diskInode store x).size, j < offset ∨ offset + buf.length ≤ j →
        (fs.diskInode store' x).byteAt store' j = (fs.diskInode store x).byteAt store j := by
  have hwf := hinv.wf
  have hd := hinv.owned x hx
  have hM : maxDataBlocks * blockSz = 16540 * 512 := by simp [maxDataBlocks_eq, blockSz]
  rw [hM] at hoff hend
  have hnew : (offset + buf.length) % 2 ^ 32 = offset + buf.length := Nat.mod_eq_of_lt (by omega)
  obtain ⟨newBlocks, d₁, s₁, h₁, hinc, hown₁⟩ := runStore_inode_increaseSize hwf hd (by omega)
    (by simp only [DiskInode.dataBlocksOf, maxDataBlocks_eq, blockSz]; omega) hfree
  have hsize := hinc.size_eq
  obtain ⟨s₂, h₂, hw⟩ := d₁.runStore_writeAt s₁ hown₁.dataBlocks_le hown₁.nodup buf
    (show offset ≤ d₁.size by omega) (by simp only [maxDataBlocks_eq, blockSz]; omega)
  rw [min_eq_left (by omega)] at h₂ hw
  rw [Nat.add_sub_cancel_left] at h₂
  have hstep := hinv.step_increased_written hx hinc hown₁ hw
  have hview := ((hown₁.written hwf hw).1.view_setDiskInode hwf (lt_of_mem_inodes hx) d₁).2
  refine ⟨fs.setDiskInode s₂ x d₁, ?_, by rwa [hstep.record], by rw [hstep.record, hsize], ?_,
    fun j hj hout ↦ ?_⟩
  · simp only [writeAt, BlockIo.bind_eq, BlockIo.pure_eq]
    rw [BlockIo.runStore_bind_of_ok _ ((runStore_modifyDiskInode x _ store _ buf.length).mpr
      ⟨d₁, s₂, by rw [hnew, BlockIo.runStore_bind_of_ok _ h₁, BlockIo.runStore_bind_of_ok _ h₂]; rfl,
        rfl⟩)]
    rfl
  · rw [hstep.record, DiskInode.bytesIn_congr fun j _ hj ↦ hview j (by omega)]
    exact hw.bytesIn_self (by omega) (by omega)
  · rw [hstep.record, hview j (by omega), hw.bytes j (by omega), if_neg (by omega)]
    exact hinc.bytes j hj

/-- Every run of `Inode::write_at` on an allocated inode that returns is a step of it, which
allocates exactly the blocks the inode gains. -/
theorem writeAt_step_accounts (hinv : fs.Inv store) (hx : x ∈ fs.inodes store) {offset : Nat}
    {buf : List UInt8} {n : Nat}
    (h : ((ofInodeId fs x).writeAt fs offset buf).runStore store = .ok (n, store')) :
    fs.Step store x (fs.diskInode store' x) store' ∧ fs.Accounts store x store' := by
  have hwf := hinv.wf
  simp only [writeAt, BlockIo.bind_eq, BlockIo.pure_eq] at h
  obtain ⟨n₁, s, h₁, h₂⟩ := BlockIo.runStore_bind_eq_ok h
  simp only [BlockIo.runStore_bind, BlockIo.runStore_syncAll, BlockIo.runStore_pure,
    Except.ok.injEq, Prod.mk.injEq] at h₂
  obtain ⟨-, rfl⟩ := h₂
  obtain ⟨d₁, s₂, h₃, rfl⟩ := (runStore_modifyDiskInode x _ store _ n₁).mp h₁
  obtain ⟨d₂, s₁, h₄, h₅⟩ := BlockIo.runStore_bind_eq_ok h₃
  obtain ⟨n₂, s₃, h₆, h₇⟩ := BlockIo.runStore_bind_eq_ok h₅
  simp only [BlockIo.runStore_pure, Except.ok.injEq, Prod.mk.injEq] at h₇
  obtain ⟨⟨rfl, rfl⟩, rfl⟩ := h₇
  obtain ⟨newBlocks, hinc, hown₁⟩ :=
    increased_of_ok hwf (hinv.owned x hx) (Nat.mod_lt _ (by decide)) h₄
  obtain ⟨hoff, hsb⟩ := DiskInode.writeAt_ok h₆
  obtain ⟨s₄, h₈, hw⟩ :=
    DiskInode.runStore_writeAt _ s₁ hown₁.dataBlocks_le hown₁.nodup buf hoff hsb
  rw [h₈] at h₆
  obtain ⟨-, rfl⟩ := Prod.mk.inj (Except.ok.inj h₆)
  have hstep := hinv.step_increased_written hx hinc hown₁ hw
  exact ⟨by rwa [hstep.record], hinv.accounts_increased_written hx hinc hown₁ hw⟩

/-- Every run of `Inode::write_at` on an allocated inode that returns is a step of it. -/
theorem writeAt_step (hinv : fs.Inv store) (hx : x ∈ fs.inodes store) {offset : Nat}
    {buf : List UInt8} {n : Nat}
    (h : ((ofInodeId fs x).writeAt fs offset buf).runStore store = .ok (n, store')) :
    fs.Step store x (fs.diskInode store' x) store' :=
  (writeAt_step_accounts hinv hx h).1

/-! ### `clear` -/

/-- `Inode::clear` on an allocated inode returns: neither its count assertion nor the
assertion of a `Bitmap::dealloc` fails. The inode's size drops to zero, and the data bitmap loses
exactly the `total_blocks(size)` blocks the inode addressed. -/
theorem runStore_clear (hinv : fs.Inv store) (hx : x ∈ fs.inodes store) :
    ∃ store', ((ofInodeId fs x).clear fs).runStore store = .ok ((), store') ∧
      fs.Step store x (fs.diskInode store' x) store' ∧ (fs.diskInode store' x).size = 0 ∧
      ((fs.diskInode store x).addressed store).length =
        DiskInode.totalBlocks (fs.diskInode store x).size ∧
      fs.dataInUse store' = fs.dataInUse store \ ((fs.diskInode store x).addressed store).toFinset := by
  have hwf := hinv.wf
  have hd := hinv.owned x hx
  obtain ⟨d', hrun, hv', hsize', htype⟩ := (fs.diskInode store x).runStore_clearSize store hd.valid
    hd.dataBlocks_le
  have hlen := (fs.diskInode store x).length_addressed store
  obtain ⟨s₁, hdl, huse₁, hfr₁⟩ := runStore_deallocLoop _ store hd.nodup hd.inUse
  have hempty := DiskInode.addressed_of_size_eq_zero hsize' s₁
  have hown : fs.Owned s₁ d' := ⟨hv', by simp [DiskInode.dataBlocks, DiskInode.dataBlocksOf,
    hsize', blockSz], by simp [hempty], by simp [hempty]⟩
  have hstep := hinv.step_setDiskInode hx hown htype (fun c hc ↦ .inl (hfr₁ c hc))
    (fun c hc ↦ by simp [hempty] at hc) fun c hc hcx ↦ by
      rw [huse₁]
      exact Finset.mem_sdiff.mpr ⟨hc, by simpa using hcx⟩
  refine ⟨fs.setDiskInode s₁ x d', ?_, by rwa [hstep.record], by rw [hstep.record, hsize'], hlen,
    by rw [dataInUse_setDiskInode hwf (lt_of_mem_inodes hx), huse₁]⟩
  simp only [clear, BlockIo.bind_eq]
  rw [BlockIo.runStore_bind_of_ok _ ((runStore_modifyDiskInode x _ store _ ()).mpr
    ⟨d', s₁, by rw [BlockIo.runStore_bind_of_ok _ hrun]; simp only [if_pos hlen]; rw [
      BlockIo.runStore_bind_of_ok _ hdl]; rfl, rfl⟩)]
  rfl

/-- Every run of `Inode::clear` on an allocated inode is a step of it. -/
theorem clear_step (hinv : fs.Inv store) (hx : x ∈ fs.inodes store)
    (h : ((ofInodeId fs x).clear fs).runStore store = .ok ((), store')) :
    fs.Step store x (fs.diskInode store' x) store' := by
  obtain ⟨s', hrun, hstep, -⟩ := runStore_clear hinv hx
  rw [hrun] at h
  obtain ⟨-, rfl⟩ := Prod.mk.inj (Except.ok.inj h)
  exact hstep

/-- Every run of `Inode::clear` on an allocated inode frees exactly the blocks it addressed. -/
theorem clear_accounts (hinv : fs.Inv store) (hx : x ∈ fs.inodes store)
    (h : ((ofInodeId fs x).clear fs).runStore store = .ok ((), store')) :
    fs.Accounts store x store' := by
  obtain ⟨s', hrun, -, hsize, -, huse⟩ := runStore_clear hinv hx
  rw [hrun] at h
  obtain ⟨-, rfl⟩ := Prod.mk.inj (Except.ok.inj h)
  rw [Accounts, huse, DiskInode.addressed_of_size_eq_zero hsize, List.toFinset_nil,
    Finset.union_empty]

end Inode

end Rcore.EasyFs
