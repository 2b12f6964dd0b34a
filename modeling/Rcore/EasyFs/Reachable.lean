import Rcore.EasyFs.Format

/-!
# Reachable states of the filesystem

A run of the filesystem formats a device, then applies the mutations of `vfs.rs` one at a time:
`create`, `link` and `unlink` on a directory, `write_at` and `clear` on any inode. A call that
panics ends the run, so every step is a call that returns. The code hands out handles for inode
ids (the root, and what `find`, `create` and `link` return), and a step is a call on the handle of
an allocated inode.

`OpEffect` says once what a call may do to the array: nothing, a `Step` of the inode it was called
on, or, for `create`, a `NewInode` and then a step. Every property of runs below is derived from
it: each reachable state satisfies `Inv` (`Reachable.inv`), and a call on one inode leaves every
other allocated inode as it was (`op_run_frame`). Over reachable states `clear` always returns and
gives back exactly the blocks of the inode (`clear_spec`); `write_at` does what its callers expect
when it starts inside the largest file and the data bitmap has the blocks it takes
(`writeAt_spec`), and never returns for a write that starts at the end of the largest file
(`writeAt_at_maxSize_fails`).
-/

set_option autoImplicit false
set_option relaxedAutoImplicit false

namespace Rcore.EasyFs

/-- A call whose result is dropped returns when the call does. -/
theorem BlockIo.runStore_discard_eq_ok {α : Type} {x : BlockIo α} {store store' : Nat → Block}
    (h : (do let _ ← x; pure () : BlockIo Unit).runStore store = .ok ((), store')) :
    ∃ a, x.runStore store = .ok (a, store') := by
  obtain ⟨a, s, h₁, h₂⟩ := BlockIo.runStore_bind_eq_ok h
  obtain ⟨-, rfl⟩ := Prod.mk.inj (Except.ok.inj h₂)
  exact ⟨a, h₁⟩

/-- A call that returns also returns with its result dropped. -/
theorem BlockIo.runStore_discard_of_ok {α : Type} {x : BlockIo α} {store store' : Nat → Block}
    {a : α} (h : x.runStore store = .ok (a, store')) :
    (do let _ ← x; pure () : BlockIo Unit).runStore store = .ok ((), store') := by
  rw [BlockIo.bind_eq, BlockIo.runStore_bind_of_ok _ h]
  rfl

/-- The mutations of `vfs.rs` a run applies to the handle of an inode. -/
inductive Op
  | create (name : List UInt8)
  | link (oldName newName : List UInt8)
  | unlink (name : List UInt8)
  | writeAt (offset : Nat) (buf : List UInt8)
  | clear
  deriving DecidableEq, Repr

/-- The call of an operation on the handle `self`, its result dropped. -/
def Op.run (fs : EasyFileSystem) (self : Inode) : Op → BlockIo Unit
  | .create name => do let _ ← self.create fs name; pure ()
  | .link oldName newName => do let _ ← self.link fs oldName newName; pure ()
  | .unlink name => do let _ ← self.unlink name; pure ()
  | .writeAt offset buf => do let _ ← self.writeAt fs offset buf; pure ()
  | .clear => self.clear fs

namespace EasyFileSystem

open Inode

/-- What one call on inode `x` leaves, from `store` to `store'`: the array as it was, a step of
`x`, or, for `create`, an inode allocated and then a step of `x`. -/
inductive OpEffect (fs : EasyFileSystem) (store : Nat → Block) (x : Nat) (store' : Nat → Block) :
    Prop
  | keep (h : store' = store)
  | step (h : fs.Step store x (fs.diskInode store' x) store')
  | newInode {y : Nat} {store₁ : Nat → Block} (hn : fs.NewInode store y store₁)
      (hs : fs.Step store₁ x (fs.diskInode store' x) store')

variable {fs : EasyFileSystem} {store store' : Nat → Block} {x : Nat}

/-- Every call that returns on an allocated inode has one of the effects `OpEffect` lists. -/
theorem Inv.opEffect (hinv : fs.Inv store) (hx : x ∈ fs.inodes store) (op : Op)
    (h : (op.run fs (ofInodeId fs x)).runStore store = .ok ((), store')) :
    fs.OpEffect store x store' := by
  cases op with
  | create name =>
    obtain ⟨r, hr⟩ := BlockIo.runStore_discard_eq_ok h
    rcases Inode.create_ok hinv hx hr with ⟨-, rfl⟩ | ⟨y, s₁, -, -, hn, -, happ⟩
    · exact .keep rfl
    · exact .newInode hn happ.step
  | link oldName newName =>
    obtain ⟨r, hr⟩ := BlockIo.runStore_discard_eq_ok h
    rcases Inode.link_ok hinv hx hr with ⟨-, -, rfl⟩ | ⟨_, -, -, happ⟩
    · exact .keep rfl
    · exact .step happ.step
  | unlink name =>
    obtain ⟨r, hr⟩ := BlockIo.runStore_discard_eq_ok h
    rcases Inode.unlink_ok hinv hx hr with ⟨-, -, rfl⟩ | ⟨-, -, hstep, -⟩
    · exact .keep rfl
    · exact .step hstep
  | writeAt offset buf =>
    obtain ⟨n, hr⟩ := BlockIo.runStore_discard_eq_ok h
    exact .step (Inode.writeAt_step hinv hx hr)
  | clear => exact .step (Inode.clear_step hinv hx h)

namespace OpEffect

variable (hinv : fs.Inv store) (hx : x ∈ fs.inodes store) (he : fs.OpEffect store x store')
include hinv hx he

theorem inv : fs.Inv store' := by
  cases he with
  | keep h => exact h ▸ hinv
  | step h => exact hinv.step hx h
  | newInode hn hs =>
    exact (hinv.newInode hn).step (by rw [hn.inodes_eq]; exact Finset.mem_insert_of_mem hx) hs

omit hinv hx in
theorem inodes_subset : fs.inodes store ⊆ fs.inodes store' := by
  cases he with
  | keep h => rw [h]
  | step h => rw [h.inodes_eq]
  | newInode hn hs =>
    rw [hs.inodes_eq, hn.inodes_eq]
    exact Finset.subset_insert _ _

/-- Every other inode allocated before the call reads as it did: its record, its blocks and its
bytes. -/
theorem view {y : Nat} (hy : y ∈ fs.inodes store) (hyx : y ≠ x) :
    fs.diskInode store' y = fs.diskInode store y ∧
      (fs.diskInode store y).addressed store' = (fs.diskInode store y).addressed store ∧
      ∀ j < (fs.diskInode store y).size,
        (fs.diskInode store y).byteAt store' j = (fs.diskInode store y).byteAt store j := by
  cases he with
  | keep h => subst h; exact ⟨rfl, rfl, fun _ _ ↦ rfl⟩
  | step h => exact hinv.step_view hx h hy hyx
  | newInode hn hs =>
    have hmem : ∀ z ∈ fs.inodes store, z ∈ fs.inodes _ := fun z hz ↦ by
      rw [hn.inodes_eq]; exact Finset.mem_insert_of_mem hz
    have hrec := hn.records y fun h ↦ hn.fresh (h ▸ hy)
    obtain ⟨haddr₁, hbytes₁⟩ := hn.view hinv.wf (hinv.owned y hy)
    obtain ⟨hrec₂, haddr₂, hbytes₂⟩ :=
      (hinv.newInode hn).step_view (hmem x hx) hs (hmem y hy) hyx
    rw [hrec] at hrec₂ haddr₂ hbytes₂
    exact ⟨hrec₂, haddr₂.trans haddr₁, fun j hj ↦ (hbytes₂ j hj).trans (hbytes₁ j hj)⟩

end OpEffect

/-- The block arrays a run of the filesystem reaches: a device formatted with a sound layout that
fits it, then calls that return on the handles of allocated inodes. -/
inductive Reachable (fs : EasyFileSystem) : (Nat → Block) → Prop
  | format {totalBlocks inodeBitmapBlocks : Nat} {device store : Nat → Block}
      (hwf : (layout totalBlocks inodeBitmapBlocks).WellFormed)
      (hfit : (layout totalBlocks inodeBitmapBlocks).dataAreaStartBlock ≤ totalBlocks)
      (h : (create totalBlocks inodeBitmapBlocks).runStore device = .ok (fs, store)) :
      Reachable fs store
  | step {store store' : Nat → Block} {x : Nat} (op : Op) (hr : Reachable fs store)
      (hx : x ∈ fs.inodes store)
      (h : (op.run fs (ofInodeId fs x)).runStore store = .ok ((), store')) :
      Reachable fs store'

/-- Every reachable state satisfies the filesystem invariant. -/
theorem Reachable.inv (hr : fs.Reachable store) : fs.Inv store := by
  induction hr with
  | format hwf hfit h => exact (create_ok h hwf hfit).2.1
  | step op _ hx h ih => exact (ih.opEffect hx op h).inv ih hx

/-- The root directory stays allocated. -/
theorem Reachable.root_mem (hr : fs.Reachable store) : 0 ∈ fs.inodes store := by
  induction hr with
  | format hwf hfit h => rw [(create_ok h hwf hfit).2.2.1]; exact Finset.mem_singleton_self 0
  | step op hr hx h ih => exact (hr.inv.opEffect hx op h).inodes_subset ih

/-! ### A formatted device

The fixed cases below run on a device of 8192 blocks formatted with one block of inode bitmap.
-/

theorem wellFormed_layout_8192 : (layout 8192 1).WellFormed :=
  wellFormed_layout (by decide) (by decide)

/-- Formatting reaches a state with the empty root directory as the one inode and no data block
in use. -/
theorem reachable_format (device : Nat → Block) :
    ∃ store, (layout 8192 1).Reachable store ∧ (layout 8192 1).inodes store = {0} ∧
      ((layout 8192 1).diskInode store 0).isDir ∧ ((layout 8192 1).diskInode store 0).size = 0 ∧
      (layout 8192 1).dataInUse store = ∅ := by
  obtain ⟨store, hrun, -, hres⟩ :=
    runStore_create device wellFormed_layout_8192 (by decide) (by decide)
  exact ⟨store, .format wellFormed_layout_8192 (by decide) hrun, hres⟩

/-- `create` of a name in the root of the formatted device returns the handle of a new inode `y`,
and the root then holds the one record for `y`. -/
theorem reachable_root_create (device : Nat → Block) (name : List UInt8) :
    ∃ store₀ store y, (layout 8192 1).Reachable store₀ ∧
      ((layout 8192 1).diskInode store₀ 0).records store₀ = [] ∧
      ((ofInodeId (layout 8192 1) 0).create (layout 8192 1) name).runStore store₀ =
        .ok (some (ofInodeId (layout 8192 1) y), store) ∧
      (layout 8192 1).Reachable store ∧ y ≠ 0 ∧ (layout 8192 1).inodes store = {0, y} ∧
      ((layout 8192 1).diskInode store 0).isDir ∧
      ((layout 8192 1).diskInode store 0).records store = [((DirEntry.new name y).nameOf, y)] := by
  obtain ⟨s₀, hr₀, hinodes, hdir, hsize, hdata⟩ := reachable_format device
  have hx : 0 ∈ (layout 8192 1).inodes s₀ := by rw [hinodes]; exact Finset.mem_singleton_self 0
  have hnil : ∀ s, ((layout 8192 1).diskInode s₀ 0).records s = [] := fun s ↦ by
    rw [DiskInode.records, hsize]; rfl
  obtain ⟨y, s₁, s, hrun, hn, -, -, happ⟩ := Inode.runStore_create hr₀.inv hx hdir name
    (by rw [hnil]; rfl) (by rw [hinodes, Finset.card_singleton]; decide)
    (by rw [hsize]; decide)
    (by rw [Finset.image_eq_empty.mp hdata, Finset.card_empty, DiskInode.blocksNumNeeded, hsize]
        decide)
  have hy : y ≠ 0 := fun h ↦ hn.fresh (by rw [h, hinodes]; exact Finset.mem_singleton_self 0)
  have hrec : (layout 8192 1).diskInode s₁ 0 = (layout 8192 1).diskInode s₀ 0 :=
    hn.records 0 (Ne.symm hy)
  refine ⟨s₀, s, y, hr₀, hnil s₀, hrun,
    .step (.create name) hr₀ hx (BlockIo.runStore_discard_of_ok hrun), hy, ?_, ?_, ?_⟩
  · rw [happ.step.inodes_eq, hn.inodes_eq, hinodes, Finset.pair_comm]
  · rw [DiskInode.isDir, happ.step.type_eq, hrec]
    exact hdir
  · rw [happ.records_eq, hrec, hnil, List.nil_append]

/-! ### Isolation -/

/-- A call on inode `a` of a reachable state leaves every other allocated inode `b` as it was: its
record (size, type and block pointers), the blocks it addresses, and every result `read_at`
returns for it. -/
theorem op_run_frame (hr : fs.Reachable store) {a b : Nat} (ha : a ∈ fs.inodes store)
    (hb : b ∈ fs.inodes store) (hab : a ≠ b) (op : Op)
    (h : (op.run fs (ofInodeId fs a)).runStore store = .ok ((), store')) :
    fs.diskInode store' b = fs.diskInode store b ∧
      (fs.diskInode store b).addressed store' = (fs.diskInode store b).addressed store ∧
      ∀ offset buf r, ((ofInodeId fs b).readAt offset buf).runStore store = .ok (r, store) →
        ((ofInodeId fs b).readAt offset buf).runStore store' = .ok (r, store') := by
  have hinv := hr.inv
  have he := hinv.opEffect ha op h
  obtain ⟨hrec, haddr, hbytes⟩ := he.view hinv ha hb (Ne.symm hab)
  refine ⟨hrec, haddr, fun offset buf r hread ↦ ?_⟩
  rw [runStore_readAt (hinv.owned b hb)] at hread
  rw [runStore_readAt ((he.inv hinv ha).owned b (he.inodes_subset hb)), hrec,
    DiskInode.bytesIn_congr fun j _ hj ↦ hbytes j (lt_of_lt_of_le hj (min_le_right _ _))]
  obtain ⟨rfl, -⟩ := Prod.mk.inj (Except.ok.inj hread)
  rfl

/-- On the formatted device with a file created in the root, clearing the root leaves the
file's record. -/
theorem op_run_frame_clear_root :
    ∃ store y store', (layout 8192 1).Reachable store ∧ 0 ∈ (layout 8192 1).inodes store ∧
      y ∈ (layout 8192 1).inodes store ∧ 0 ≠ y ∧
      (Op.clear.run (layout 8192 1) (ofInodeId (layout 8192 1) 0)).runStore store =
        .ok ((), store') ∧
      (layout 8192 1).diskInode store' y = (layout 8192 1).diskInode store y := by
  obtain ⟨-, s, y, -, -, -, hr, hy, hinodes, -⟩ := reachable_root_create (fun _ ↦ zeroBlock) []
  have h0 : 0 ∈ (layout 8192 1).inodes s := by rw [hinodes]; exact Finset.mem_insert_self 0 _
  have hy' : y ∈ (layout 8192 1).inodes s := by
    rw [hinodes]; exact Finset.mem_insert_of_mem (Finset.mem_singleton_self y)
  obtain ⟨s', hrun, -⟩ := runStore_clear hr.inv h0
  exact ⟨s, y, s', hr, h0, hy', Ne.symm hy, hrun,
    (op_run_frame hr h0 hy' (Ne.symm hy) .clear hrun).1⟩

/-! ### `clear` -/

/-- Giving back blocks in use clears exactly their bits in the data bitmap. -/
theorem allocated_of_dataInUse_eq_sdiff {A : Finset Nat} (hA : A ⊆ fs.dataInUse store)
    (h : fs.dataInUse store' = fs.dataInUse store \ A) :
    fs.dataBitmap.allocated store' =
      fs.dataBitmap.allocated store \ A.image (· - fs.dataAreaStartBlock) := by
  have hmem : ∀ (s : Nat → Block) (i : Nat),
      i ∈ fs.dataBitmap.allocated s ↔ i + fs.dataAreaStartBlock ∈ fs.dataInUse s := fun s i ↦ by
    rw [mem_dataInUse, Nat.add_sub_cancel]
    exact (and_iff_right (Nat.le_add_left _ _)).symm
  ext i
  rw [hmem, h, Finset.mem_sdiff, Finset.mem_sdiff, ← hmem, Finset.mem_image]
  refine and_congr_right fun _ ↦ not_congr ⟨fun hi ↦ ⟨_, hi, Nat.add_sub_cancel _ _⟩, ?_⟩
  rintro ⟨c, hc, rfl⟩
  rwa [Nat.sub_add_cancel (mem_dataInUse.mp (hA hc)).1]

/-- `Inode::clear` on any inode of a reachable state returns: neither its count assertion nor a
`Bitmap::dealloc` assertion fails. The size drops to zero, so `read_at` then reads nothing at
every offset, and the data bitmap loses exactly the bits of the `total_blocks(size)` blocks the
inode addressed, which were all set. -/
theorem clear_spec (hr : fs.Reachable store) (hx : x ∈ fs.inodes store) :
    ∃ store', ((ofInodeId fs x).clear fs).runStore store = .ok ((), store') ∧
      (fs.diskInode store' x).size = 0 ∧
      (∀ offset buf, ((ofInodeId fs x).readAt offset buf).runStore store' = .ok ((0, buf), store')) ∧
      ((fs.diskInode store x).addressed store).length =
        DiskInode.totalBlocks (fs.diskInode store x).size ∧
      (∀ b ∈ (fs.diskInode store x).addressed store,
        b - fs.dataAreaStartBlock ∈ fs.dataBitmap.allocated store) ∧
      fs.dataBitmap.allocated store' = fs.dataBitmap.allocated store \
        ((fs.diskInode store x).addressed store).toFinset.image (· - fs.dataAreaStartBlock) := by
  have hinv := hr.inv
  have hown := hinv.owned x hx
  obtain ⟨s', hrun, hstep, hsize, hlen, huse⟩ := runStore_clear hinv hx
  have hx' : x ∈ fs.inodes s' := by rw [hstep.inodes_eq]; exact hx
  refine ⟨s', hrun, hsize, fun offset buf ↦ ?_, hlen,
    fun b hb ↦ (mem_dataInUse.mp (hown.inUse b hb)).2,
    allocated_of_dataInUse_eq_sdiff (fun b hb ↦ hown.inUse b (List.mem_toFinset.mp hb)) huse⟩
  rw [runStore_readAt ((hinv.step hx hstep).owned x hx'), hsize, Nat.min_zero, Nat.zero_sub,
    DiskInode.bytesIn, Nat.zero_sub, List.range'_zero, List.map_nil, copyFromSlice_nil]

/-- Clearing the root of the formatted device after `write_at(0, [1, 2, 3])`: the root holds
three bytes in one data block, which `clear` gives back. -/
theorem clear_spec_root :
    ∃ store, (layout 8192 1).Reachable store ∧ 0 ∈ (layout 8192 1).inodes store ∧
      ((layout 8192 1).diskInode store 0).size = 3 ∧
      ∃ store', ((ofInodeId (layout 8192 1) 0).clear (layout 8192 1)).runStore store =
          .ok ((), store') ∧
        ((layout 8192 1).diskInode store' 0).size = 0 ∧
        (∀ offset buf, ((ofInodeId (layout 8192 1) 0).readAt offset buf).runStore store' =
          .ok ((0, buf), store')) ∧
        (((layout 8192 1).diskInode store 0).addressed store).length =
          DiskInode.totalBlocks ((layout 8192 1).diskInode store 0).size ∧
        (∀ b ∈ ((layout 8192 1).diskInode store 0).addressed store,
          b - (layout 8192 1).dataAreaStartBlock ∈ (layout 8192 1).dataBitmap.allocated store) ∧
        (layout 8192 1).dataBitmap.allocated store' = (layout 8192 1).dataBitmap.allocated store \
          (((layout 8192 1).diskInode store 0).addressed store).toFinset.image
            (· - (layout 8192 1).dataAreaStartBlock) := by
  obtain ⟨s₀, hr₀, hinodes, -, hsize₀, hdata⟩ := reachable_format (fun _ ↦ zeroBlock)
  have h0 : 0 ∈ (layout 8192 1).inodes s₀ := by rw [hinodes]; exact Finset.mem_singleton_self 0
  obtain ⟨s, hrun, hstep, hsize, -⟩ := Inode.runStore_writeAt hr₀.inv h0 [1, 2, 3]
    (show 0 < maxDataBlocks * blockSz by decide) (by decide)
    (by rw [Finset.image_eq_empty.mp hdata, Finset.card_empty, DiskInode.blocksNumNeeded, hsize₀]
        decide)
  have hr : (layout 8192 1).Reachable s :=
    .step (.writeAt 0 [1, 2, 3]) hr₀ h0 (BlockIo.runStore_discard_of_ok hrun)
  have hx : 0 ∈ (layout 8192 1).inodes s := by rw [hstep.inodes_eq]; exact h0
  exact ⟨s, hr, hx, by rw [hsize, hsize₀]; rfl, clear_spec hr hx⟩

/-! ### `write_at` -/

/-- `Inode::write_at` on any inode of a reachable state, for a write that starts inside the
largest file and ends within it, when the data bitmap has the blocks its growth takes: it returns
the length of the buffer, the size grows to cover the write, a `read_at` of the written range
then fills a buffer of that length with the written bytes, and every other byte below the old
size reads as before. -/
theorem writeAt_spec (hr : fs.Reachable store) (hx : x ∈ fs.inodes store) {offset : Nat}
    (buf : List UInt8) (hoff : offset < maxDataBlocks * blockSz)
    (hend : offset + buf.length ≤ maxDataBlocks * blockSz)
    (hfree : (fs.dataBitmap.allocated store).card +
      (fs.diskInode store x).blocksNumNeeded (offset + buf.length) ≤ fs.dataBitmap.maximum) :
    ∃ store', ((ofInodeId fs x).writeAt fs offset buf).runStore store = .ok (buf.length, store') ∧
      (fs.diskInode store' x).size = max (fs.diskInode store x).size (offset + buf.length) ∧
      (∀ r : List UInt8, r.length = buf.length →
        ((ofInodeId fs x).readAt offset r).runStore store' = .ok ((buf.length, buf), store')) ∧
      ∀ j < (fs.diskInode store x).size, j < offset ∨ offset + buf.length ≤ j →
        (fs.diskInode store' x).byteAt store' j = (fs.diskInode store x).byteAt store j := by
  have hinv := hr.inv
  obtain ⟨s', hrun, hstep, hsize, hbytes, hkeep⟩ := runStore_writeAt hinv hx buf hoff hend hfree
  refine ⟨s', hrun, hsize, fun r hr ↦ ?_, hkeep⟩
  have hmin : min (offset + r.length) (fs.diskInode s' x).size = offset + buf.length := by
    rw [hr, hsize]
    exact min_eq_left (le_max_right _ _)
  have hx' : x ∈ fs.inodes s' := by rw [hstep.inodes_eq]; exact hx
  rw [runStore_readAt ((hinv.step hx hstep).owned x hx'), hmin,
    Nat.add_sub_cancel_left, hbytes, copyFromSlice_zero_of_length_eq hr]

/-- Three bytes written at the start of the root of the formatted device read back. -/
theorem writeAt_spec_root :
    ∃ store store', (layout 8192 1).Reachable store ∧
      ((ofInodeId (layout 8192 1) 0).writeAt (layout 8192 1) 0 [1, 2, 3]).runStore store =
        .ok (3, store') ∧
      ((ofInodeId (layout 8192 1) 0).readAt 0 [0, 0, 0]).runStore store' =
        .ok ((3, [1, 2, 3]), store') := by
  obtain ⟨s, hr, hinodes, -, hsize, hdata⟩ := reachable_format (fun _ ↦ zeroBlock)
  have h0 : 0 ∈ (layout 8192 1).inodes s := by rw [hinodes]; exact Finset.mem_singleton_self 0
  obtain ⟨s', hrun, -, hread, -⟩ := writeAt_spec hr h0 [1, 2, 3]
    (show 0 < maxDataBlocks * blockSz by decide) (by decide)
    (by rw [Finset.image_eq_empty.mp hdata, Finset.card_empty, DiskInode.blocksNumNeeded, hsize]
        decide)
  exact ⟨s, s', hr, hrun, hread _ rfl⟩

/-- `Inode::write_at` never returns for a write that starts at the end of the largest file, even an
empty one: its block loop looks up the data block past the last one. -/
theorem writeAt_maxSize_ne_ok (store : Nat → Block) (x : Nat) (buf : List UInt8)
    (r : Nat × (Nat → Block)) :
    ((ofInodeId fs x).writeAt fs (maxDataBlocks * blockSz) buf).runStore store ≠ .ok r := by
  intro h
  simp only [writeAt, BlockIo.bind_eq, BlockIo.pure_eq] at h
  obtain ⟨n₁, s, h₁, -⟩ := BlockIo.runStore_bind_eq_ok h
  obtain ⟨d₁, s₂, h₃, -⟩ := (runStore_modifyDiskInode x _ store _ n₁).mp h₁
  obtain ⟨d₂, s₁, -, h₅⟩ := BlockIo.runStore_bind_eq_ok h₃
  obtain ⟨n₂, s₃, h₆, -⟩ := BlockIo.runStore_bind_eq_ok h₅
  have := (DiskInode.writeAt_ok h₆).2
  rw [Nat.mul_div_cancel _ (by decide : 0 < blockSz)] at this
  exact lt_irrefl _ this

/-- A write that starts at the end of the largest file meets the bound `offset + len ≤` the
largest size, yet on the root of the formatted device it never returns. -/
theorem writeAt_at_maxSize_fails :
    ∃ store, (layout 8192 1).Reachable store ∧ 0 ∈ (layout 8192 1).inodes store ∧
      maxDataBlocks * blockSz + ([] : List UInt8).length ≤ maxDataBlocks * blockSz ∧
      ∀ r, ((ofInodeId (layout 8192 1) 0).writeAt (layout 8192 1) (maxDataBlocks * blockSz)
        []).runStore store ≠ .ok r := by
  obtain ⟨s, hr, hinodes, -⟩ := reachable_format (fun _ ↦ zeroBlock)
  exact ⟨s, hr, by rw [hinodes]; exact Finset.mem_singleton_self 0, le_refl _,
    writeAt_maxSize_ne_ok s 0 []⟩

end EasyFileSystem

end Rcore.EasyFs
