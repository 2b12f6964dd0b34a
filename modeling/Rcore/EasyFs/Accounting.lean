import Rcore.EasyFs.Reachable

/-!
# The data bitmap accounts for the blocks of the inodes

Every block an allocated inode addresses is set in the data bitmap (`Inv`), and `unlink` leaks:
the directory loses its last record and, with it, possibly a block that stays set
(`unlink_leaks_block`). Every other call allocates exactly what its inode gains and frees exactly
what it drops (`Accounts`): `write_at` and the record `create` and `link` append allocate the
blocks of the growth, `clear` frees every block of the inode, and the inode `create` allocates
addresses nothing. So along a run that never calls `unlink` the blocks set in the data bitmap are
exactly the blocks the allocated inodes address (`dataInUse_eq_addressedBlocks`): no block leaks,
and no block is set that no inode holds.

The invariant is carried through a step of one inode by the union over the allocated inodes
(`addressedBlocks`): a step replaces the blocks of its inode in the union and leaves the others,
which no other inode shares (`Inv.addressedBlocks_step`).

The inode bitmap only grows. No call frees an inode, not `clear`, not `unlink` of the last record
of a file, and no call changes the type of an inode: along every run from a reachable state
(`Reaches`) each inode allocated at its start stays allocated with its type
(`inodes_persist`). So the root, a directory once formatted, is a directory in every reachable
state.
-/

set_option autoImplicit false
set_option relaxedAutoImplicit false

namespace Rcore.EasyFs

namespace EasyFileSystem

open Inode

variable (fs : EasyFileSystem)

/-- The blocks the allocated inodes address. -/
def addressedBlocks (store : Nat → Block) : Finset Nat :=
  (fs.inodes store).biUnion fun x ↦ ((fs.diskInode store x).addressed store).toFinset

/-- The block arrays a run reaches whose every call is `allowed` on the array it starts from. -/
inductive ReachableUnder (allowed : (Nat → Block) → Nat → Op → Prop) : (Nat → Block) → Prop
  | format {totalBlocks inodeBitmapBlocks : Nat} {device store : Nat → Block}
      (hwf : (layout totalBlocks inodeBitmapBlocks).WellFormed)
      (hfit : (layout totalBlocks inodeBitmapBlocks).dataAreaStartBlock ≤ totalBlocks)
      (h : (create totalBlocks inodeBitmapBlocks).runStore device = .ok (fs, store)) :
      ReachableUnder allowed store
  | step {store store' : Nat → Block} {x : Nat} (op : Op) (hop : allowed store x op)
      (hr : ReachableUnder allowed store) (hx : x ∈ fs.inodes store)
      (h : (op.run fs (ofInodeId fs x)).runStore store = .ok ((), store')) :
      ReachableUnder allowed store'

/-- The block arrays a run reaches that never calls `unlink`. -/
def ReachableWithoutUnlink : (Nat → Block) → Prop :=
  fs.ReachableUnder fun _ _ op ↦ ∀ name, op ≠ .unlink name

variable {fs} {store store' : Nat → Block} {x : Nat}

/-- A step of `x` replaces the blocks of `x` in the union and leaves those of every other inode. -/
theorem Inv.addressedBlocks_step (hinv : fs.Inv store) (hx : x ∈ fs.inodes store)
    (hs : fs.Step store x (fs.diskInode store' x) store') :
    fs.addressedBlocks store' = fs.addressedBlocks store \
      ((fs.diskInode store x).addressed store).toFinset ∪
        ((fs.diskInode store' x).addressed store').toFinset := by
  ext b
  simp only [addressedBlocks, hs.inodes_eq, Finset.mem_union, Finset.mem_sdiff,
    Finset.mem_biUnion, List.mem_toFinset]
  constructor
  · rintro ⟨y, hy, hb⟩
    by_cases hyx : y = x
    · subst hyx
      exact .inr hb
    · obtain ⟨hrec, haddr, -⟩ := hinv.step_view hx hs hy hyx
      rw [hrec, haddr] at hb
      exact .inl ⟨⟨y, hy, hb⟩, hinv.disjoint y hy x hx hyx b hb⟩
  · rintro (⟨⟨y, hy, hb⟩, hbx⟩ | hb)
    · have hyx : y ≠ x := fun h ↦ hbx (h ▸ hb)
      obtain ⟨hrec, haddr, -⟩ := hinv.step_view hx hs hy hyx
      exact ⟨y, hy, by rwa [hrec, haddr]⟩
    · exact ⟨x, hx, hb⟩

/-- A step that allocates and frees exactly what its inode gains and drops keeps the data bitmap
equal to the blocks of the inodes. -/
theorem Inv.accounted_step (hinv : fs.Inv store) (hx : x ∈ fs.inodes store)
    (hs : fs.Step store x (fs.diskInode store' x) store') (hacc : fs.Accounts store x store')
    (h : fs.dataInUse store = fs.addressedBlocks store) :
    fs.dataInUse store' = fs.addressedBlocks store' := by
  rw [hacc, h, hinv.addressedBlocks_step hx hs]

/-- The inode `create` allocates addresses nothing and sets no data block. -/
theorem Inv.accounted_newInode (hinv : fs.Inv store) {y : Nat} (hn : fs.NewInode store y store')
    (h : fs.dataInUse store = fs.addressedBlocks store) :
    fs.dataInUse store' = fs.addressedBlocks store' := by
  have huse : fs.dataInUse store' = fs.dataInUse store := by
    rw [dataInUse, dataInUse, hn.dataBitmap_allocated hinv.wf]
  rw [huse, h, addressedBlocks, addressedBlocks, hn.inodes_eq, Finset.biUnion_insert,
    DiskInode.addressed_of_size_eq_zero hn.size_eq, List.toFinset_nil, Finset.empty_union]
  exact Finset.biUnion_congr rfl fun z hz ↦ by
    rw [hn.records z fun h ↦ hn.fresh (h ▸ hz), (hn.view hinv.wf (hinv.owned z hz)).1]

/-- Every call other than `unlink` that returns on an allocated inode keeps the data bitmap equal
to the blocks of the inodes. -/
theorem Inv.accounted_run (hinv : fs.Inv store) (hx : x ∈ fs.inodes store) (op : Op)
    (hop : ∀ name, op ≠ .unlink name)
    (h : (op.run fs (ofInodeId fs x)).runStore store = .ok ((), store'))
    (hacc : fs.dataInUse store = fs.addressedBlocks store) :
    fs.dataInUse store' = fs.addressedBlocks store' := by
  cases op with
  | create name =>
    obtain ⟨r, hr⟩ := BlockIo.runStore_discard_eq_ok h
    rcases Inode.create_ok hinv hx hr with ⟨-, rfl⟩ | ⟨y, s₁, -, -, hn, -, happ⟩
    · exact hacc
    · have hx₁ : x ∈ fs.inodes s₁ := by rw [hn.inodes_eq]; exact Finset.mem_insert_of_mem hx
      exact (hinv.newInode hn).accounted_step hx₁ happ.step happ.accounts
        (hinv.accounted_newInode hn hacc)
  | link oldName newName =>
    obtain ⟨r, hr⟩ := BlockIo.runStore_discard_eq_ok h
    rcases Inode.link_ok hinv hx hr with ⟨-, -, rfl⟩ | ⟨_, -, -, happ⟩
    · exact hacc
    · exact hinv.accounted_step hx happ.step happ.accounts hacc
  | unlink name => exact absurd rfl (hop name)
  | writeAt offset buf =>
    obtain ⟨n, hr⟩ := BlockIo.runStore_discard_eq_ok h
    obtain ⟨hs, hacc'⟩ := Inode.writeAt_step_accounts hinv hx hr
    exact hinv.accounted_step hx hs hacc' hacc
  | clear =>
    exact hinv.accounted_step hx (Inode.clear_step hinv hx h) (Inode.clear_accounts hinv hx h) hacc

/-- Along every run that never calls `unlink`, the data bitmap marks exactly the blocks the
allocated inodes address: `create`, `link`, `write_at` and `clear` leak no block, and set none that
no inode holds. -/
theorem dataInUse_eq_addressedBlocks (hr : fs.ReachableWithoutUnlink store) :
    fs.Reachable store ∧ fs.dataInUse store = fs.addressedBlocks store := by
  induction hr with
  | format hwf hfit h =>
    obtain ⟨rfl, -, hinodes, -, hsize, huse⟩ := create_ok h hwf hfit
    refine ⟨.format hwf hfit h, ?_⟩
    rw [huse, addressedBlocks, hinodes, Finset.singleton_biUnion,
      DiskInode.addressed_of_size_eq_zero hsize, List.toFinset_nil]
  | step op hop _ hx h ih =>
    exact ⟨.step op ih.1 hx h, ih.1.inv.accounted_run hx op hop h ih.2⟩

theorem dataInUse_eq_addressedBlocks_format :
    ∃ store, (layout 8192 1).ReachableWithoutUnlink store ∧
      (layout 8192 1).dataInUse store = (layout 8192 1).addressedBlocks store := by
  obtain ⟨store, hrun, -⟩ :=
    runStore_create (fun _ ↦ zeroBlock) wellFormed_layout_8192 (by decide) (by decide)
  have hr : (layout 8192 1).ReachableWithoutUnlink store :=
    ReachableUnder.format wellFormed_layout_8192 (by decide) hrun
  exact ⟨store, hr, (dataInUse_eq_addressedBlocks hr).2⟩

/-! ### Inodes are never freed -/

variable (fs)

/-- The block arrays a run reaches from `store` by calls that return on the handles of
allocated inodes. -/
inductive Reaches (store : Nat → Block) : (Nat → Block) → Prop
  | refl : Reaches store store
  | step {s s' : Nat → Block} {x : Nat} (op : Op) (hr : Reaches store s)
      (hx : x ∈ fs.inodes s) (h : (op.run fs (ofInodeId fs x)).runStore s = .ok ((), s')) :
      Reaches store s'

variable {fs}

theorem Reaches.reachable (hr : fs.Reachable store) (h : fs.Reaches store store') :
    fs.Reachable store' := by
  induction h with
  | refl => exact hr
  | step op _ hx h ih => exact .step op ih hx h

/-- A call keeps the type of every allocated inode. -/
theorem OpEffect.type_eq (hinv : fs.Inv store) (hx : x ∈ fs.inodes store)
    (he : fs.OpEffect store x store') {y : Nat} (hy : y ∈ fs.inodes store) :
    (fs.diskInode store' y).type_ = (fs.diskInode store y).type_ := by
  by_cases hyx : y = x
  · subst hyx
    cases he with
    | keep h => rw [h]
    | step h => exact h.type_eq
    | newInode hn hs => rw [hs.type_eq, hn.records y fun h ↦ hn.fresh (h ▸ hy)]
  · rw [(he.view hinv hx hy hyx).1]

/-- No call frees an inode or changes its type: along every run from a reachable state, each
inode allocated at its start stays allocated, with the same type. -/
theorem inodes_persist (hr : fs.Reachable store) (h : fs.Reaches store store') :
    ∀ y ∈ fs.inodes store,
      y ∈ fs.inodes store' ∧ (fs.diskInode store' y).type_ = (fs.diskInode store y).type_ := by
  induction h with
  | refl => exact fun y hy ↦ ⟨hy, rfl⟩
  | step op hs hx h ih =>
    have hinv := (hs.reachable hr).inv
    have he := hinv.opEffect hx op h
    intro y hy
    obtain ⟨hy', htype⟩ := ih y hy
    exact ⟨he.inodes_subset hy', (he.type_eq hinv hx hy').trans htype⟩

theorem inodes_persist_root_create :
    ∃ store₀ store, (layout 8192 1).Reachable store₀ ∧ (layout 8192 1).Reaches store₀ store ∧
      0 ∈ (layout 8192 1).inodes store₀ ∧ 0 ∈ (layout 8192 1).inodes store ∧
      ((layout 8192 1).diskInode store 0).type_ = ((layout 8192 1).diskInode store₀ 0).type_ := by
  obtain ⟨store₀, store, y, hr₀, -, hrun, -⟩ := reachable_root_create (fun _ ↦ zeroBlock) []
  have h0 := hr₀.root_mem
  have hreach : (layout 8192 1).Reaches store₀ store :=
    .step (.create []) .refl h0 (BlockIo.runStore_discard_of_ok hrun)
  exact ⟨store₀, store, hr₀, hreach, h0, inodes_persist hr₀ hreach 0 h0⟩

end EasyFileSystem

end Rcore.EasyFs
