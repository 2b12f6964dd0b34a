import Rcore.EasyFs.InodeOps

/-!
# The directory operations of `vfs.rs`

On a directory inode, read as its list of records (`DiskInode.records`), the operations of
`vfs.rs` are list operations. `find` looks the name up (`List.lookup`), `ls` lists the names and
`get_link_num` counts the records whose inode lives at an address. `create` and `link` append a
record, with the name as `DirEntry::new` stores it (`Appended`); `unlink` removes the first record
with the name by a swap with the last (`swapRemove`). The lookups read the directory and write
nothing; the mutations are steps of the directory, `create` after it has allocated a fresh inode.

As in `InodeOps`, each mutation has a theorem for a run with the room it needs, which returns, and
one for every run that returns.
-/

set_option autoImplicit false
set_option relaxedAutoImplicit false

namespace Rcore.EasyFs

/-- A looked-up name names a pair of the list. -/
theorem mem_of_lookup_eq_some {β : Type} {l : List (List UInt8 × β)} {a : List UInt8} {b : β}
    (h : l.lookup a = some b) : (a, b) ∈ l := by
  induction l with
  | nil => cases h
  | cons r l ih =>
    obtain ⟨k, c⟩ := r
    rw [List.lookup_cons] at h
    by_cases hak : a = k
    · subst hak
      simp only [beq_self_eq_true, Option.some.injEq] at h
      exact h ▸ List.mem_cons_self _ _
    · rw [beq_false_of_ne hak] at h
      exact List.mem_cons_of_mem _ (ih h)

/-- Cutting the size of a record keeps its type. Stated for a variable record, so that a proof
using it never unfolds a record read from the array. -/
theorem DiskInode.type_withSize (d : DiskInode) (size : Nat) :
    ({ d with size } : DiskInode).type_ = d.type_ := rfl

/-- Cutting the size of a record keeps the bytes it addresses. -/
theorem DiskInode.byteAt_withSize (d : DiskInode) (size : Nat) (store : Nat → Block) :
    ({ d with size } : DiskInode).byteAt store = d.byteAt store := rfl

namespace EasyFileSystem

variable {fs : EasyFileSystem} {store : Nat → Block} {d : DiskInode}

/-- A record cut to a smaller size is owned, and addresses a prefix of its blocks. -/
theorem Owned.shrink (h : fs.Owned store d) {size : Nat} (hs : size ≤ d.size) :
    fs.Owned store { d with size } ∧ ({ d with size } : DiskInode).addressed store <+: d.addressed store := by
  have hle : DiskInode.dataBlocksOf size ≤ d.dataBlocks :=
    Nat.div_le_div_right (by simp only [blockSz]; omega)
  have hpre : d.blocksUpTo store _ <+: d.blocksUpTo store _ := d.blocksUpTo_prefix_of_le hle
  exact ⟨⟨⟨lt_of_le_of_lt hs h.valid.1, h.valid.2⟩, hle.trans h.dataBlocks_le,
    hpre.sublist.nodup h.nodup, fun b hb ↦ h.inUse b (hpre.subset hb)⟩, hpre⟩

/-- What appending the record `(name, inodeId)` to directory `x` leaves, from `store` to
`store'`: a step of `x` that keeps its type and allocates exactly the blocks the directory gains,
and a list of records that gains the record at its end, with the name `DirEntry::new` stores. -/
structure Appended (fs : EasyFileSystem) (store : Nat → Block) (x : Nat) (name : List UInt8)
    (inodeId : Nat) (store' : Nat → Block) : Prop where
  step : fs.Step store x (fs.diskInode store' x) store'
  records_eq : (fs.diskInode store' x).records store' =
    (fs.diskInode store x).records store ++ [((DirEntry.new name inodeId).nameOf, inodeId)]
  accounts : fs.Accounts store x store'

end EasyFileSystem

namespace Inode

open EasyFileSystem

variable {fs : EasyFileSystem} {store store' : Nat → Block} {x : Nat}

/-! ### Lookups -/

/-- The closure `op` of `create`, `link` and `unlink` on a directory: the inode id of its first
record with the name, read with nothing written. -/
theorem runStore_lookup (hd : fs.Owned store (fs.diskInode store x))
    (hdir : (fs.diskInode store x).isDir) (name : List UInt8) :
    ((ofInodeId fs x).readDiskInode (lookupOp name)).runStore store =
      .ok (((fs.diskInode store x).records store).lookup name, store) := by
  rw [runStore_readDiskInode, lookupOp, if_pos hdir, findInodeId, if_pos hdir]
  exact DiskInode.runStore_findInodeIdLoop hd.size_le name _ DirEntry.empty rfl
    fun i hi ↦ List.mem_range.mp hi

/-- On a file, the closure `op` of `create`, `link` and `unlink` fails its assertion. -/
theorem runStore_lookup_of_not_isDir (hdir : ¬ (fs.diskInode store x).isDir) (name : List UInt8) :
    ((ofInodeId fs x).readDiskInode (lookupOp name)).runStore store = .error rootIsDirMsg := by
  rw [runStore_readDiskInode, lookupOp, if_neg hdir, BlockIo.runStore_panic]

/-- `Inode::find` on a directory: the handle of the inode of its first record with the name. -/
theorem runStore_find (hd : fs.Owned store (fs.diskInode store x))
    (hdir : (fs.diskInode store x).isDir) (name : List UInt8) :
    ((ofInodeId fs x).find fs name).runStore store =
      .ok ((((fs.diskInode store x).records store).lookup name).map (ofInodeId fs), store) := by
  rw [find, runStore_readDiskInode, findInodeId, if_pos hdir]
  simp only [BlockIo.bind_eq]
  rw [BlockIo.runStore_bind_of_ok _ (DiskInode.runStore_findInodeIdLoop hd.size_le name _
    DirEntry.empty rfl fun i hi ↦ List.mem_range.mp hi)]
  rfl

/-- `Inode::ls`: the names of the records, in order. -/
theorem runStore_ls (hd : fs.Owned store (fs.diskInode store x)) :
    ((ofInodeId fs x).ls).runStore store =
      .ok (((fs.diskInode store x).records store).map Prod.fst, store) := by
  rw [ls, runStore_readDiskInode, DiskInode.runStore_lsLoop hd.size_le _
    fun i hi ↦ List.mem_range.mp hi]
  simp [DiskInode.records]

/-- `Inode::get_link_num`: the number of records whose inode lives at the address. -/
theorem runStore_getLinkNum (hd : fs.Owned store (fs.diskInode store x)) (blockId blockOffset : Nat) :
    ((ofInodeId fs x).getLinkNum fs blockId blockOffset).runStore store =
      .ok (((fs.diskInode store x).records store).countP
        (fun r ↦ fs.getDiskInodePos r.2 = (blockId, blockOffset)), store) := by
  rw [getLinkNum, runStore_readDiskInode]
  exact DiskInode.runStore_linkNumLoop hd.size_le fs blockId blockOffset _ DirEntry.empty rfl
    fun i hi ↦ List.mem_range.mp hi

/-! ### Appending a record -/

section Append

variable (hinv : fs.Inv store) (hx : x ∈ fs.inodes store)
include hinv hx

/-- The closure of `create` and `link` that appends the record `(name, inodeId)` to directory
`x`, when the directory is below the largest size and the data bitmap has the blocks its growth
takes. -/
theorem runStore_appendDirent (name : List UInt8) {inodeId : Nat} (hid : inodeId < 2 ^ 32)
    (hroom : ((fs.diskInode store x).size / direntSz + 1) * direntSz ≤ maxDataBlocks * blockSz)
    (hfree : (fs.dataBitmap.allocated store).card + (fs.diskInode store x).blocksNumNeeded
      (((fs.diskInode store x).size / direntSz + 1) * direntSz) ≤ fs.dataBitmap.maximum) :
    ∃ d₁ s₂, (appendDirent fs name inodeId (fs.diskInode store x)).runStore store =
        .ok ((d₁, ()), s₂) ∧ Appended fs store x name inodeId (fs.setDiskInode s₂ x d₁) := by
  have hwf := hinv.wf
  have hd := hinv.owned x hx
  have hM : maxDataBlocks * blockSz = 16540 * 512 := by simp [maxDataBlocks_eq, blockSz]
  have h32 : direntSz = 32 := rfl
  obtain ⟨c, hcdef⟩ : ∃ c, (fs.diskInode store x).size / direntSz = c := ⟨_, rfl⟩
  rw [hcdef, hM, h32] at hroom
  rw [hcdef, h32] at hfree
  have hc : (fs.diskInode store x).size < (c + 1) * 32 := by rw [h32] at hcdef; omega
  obtain ⟨newBlocks, d₁, s₁, h₁, hinc, hown₁⟩ := runStore_inode_increaseSize hwf hd
    (show (c + 1) * 32 < 2 ^ 32 by omega)
    (by simp only [DiskInode.dataBlocksOf, maxDataBlocks_eq, blockSz]; omega) hfree
  have hsize : d₁.size = (c + 1) * 32 := by rw [hinc.size_eq]; omega
  set bytes := (DirEntry.new name inodeId).asBytes
  have hbytes : bytes.length = 32 := DirEntry.length_asBytes (DirEntry.length_name_new _ _)
  obtain ⟨s₂, h₂, hw⟩ := DiskInode.runStore_writeAt d₁ s₁ hown₁.dataBlocks_le hown₁.nodup bytes
    (show c * 32 ≤ d₁.size by omega) (by simp only [maxDataBlocks_eq, blockSz]; omega)
  rw [hbytes, min_eq_left (by omega)] at h₂ hw
  have hview := ((hown₁.written hwf hw).1.view_setDiskInode hwf (lt_of_mem_inodes hx) d₁).2
  have hstep := hinv.step_increased_written hx hinc hown₁ hw
  refine ⟨d₁, s₂, ?_, by rwa [hstep.record], ?_, hinv.accounts_increased_written hx hinc hown₁ hw⟩
  · simp only [appendDirent, BlockIo.bind_eq, BlockIo.pure_eq]
    rw [hcdef, h32, Nat.mod_eq_of_lt (show (c + 1) * 32 < 2 ^ 32 by omega),
      BlockIo.runStore_bind_of_ok _ h₁, BlockIo.runStore_bind_of_ok _ h₂]
    rfl
  · have hcount : d₁.size / direntSz = c + 1 := by rw [hsize, h32]; omega
    rw [hstep.record, DiskInode.records, hcount, List.range_succ, List.map_append,
      List.map_singleton, DiskInode.records, hcdef]
    refine congrArg₂ (· ++ ·) ?_ ?_
    · refine List.map_congr_left fun j hj ↦ DiskInode.record_congr fun k hk ↦ ?_
      rw [List.mem_range] at hj
      rw [h32] at hk ⊢
      rw [hview _ (by omega), hw.bytes _ (by omega), if_neg (by omega)]
      exact hinc.bytes _ (by rw [h32] at hcdef; omega)
    · have hrec : d₁.recordBytes (fs.setDiskInode s₂ x d₁) c = bytes := by
        rw [DiskInode.recordBytes, DiskInode.bytesIn_congr fun k _ hk ↦ hview k (by
          rw [h32] at hk; omega), h32, Nat.mul_comm]
        exact hw.bytesIn_self (by omega) (by omega)
      rw [DiskInode.record, DiskInode.entry, hrec,
        DirEntry.ofBytes_asBytes (DirEntry.length_name_new _ _) hid]
      rfl

/-- A run of the closure that appends a record that returns had the room it needed. -/
theorem appendDirent_room {name : List UInt8} {inodeId : Nat} {d₁ : DiskInode} {s₂ : Nat → Block}
    (h : (appendDirent fs name inodeId (fs.diskInode store x)).runStore store = .ok ((d₁, ()), s₂)) :
    ((fs.diskInode store x).size / direntSz + 1) * direntSz ≤ maxDataBlocks * blockSz ∧
      (fs.dataBitmap.allocated store).card + (fs.diskInode store x).blocksNumNeeded
        (((fs.diskInode store x).size / direntSz + 1) * direntSz) ≤ fs.dataBitmap.maximum := by
  have hd := hinv.owned x hx
  have hle := hd.size_le
  have hM : maxDataBlocks * blockSz = 16540 * 512 := by simp [maxDataBlocks_eq, blockSz]
  have h32 : direntSz = 32 := rfl
  rw [hM] at hle ⊢
  simp only [appendDirent, BlockIo.bind_eq] at h
  obtain ⟨d₂, s₁, h₁, -⟩ := BlockIo.runStore_bind_eq_ok h
  obtain ⟨hmax, hfree⟩ := increaseSize_ok hd h₁
  rw [h32] at hmax hfree ⊢
  rw [Nat.mod_eq_of_lt (by omega)] at hmax hfree
  simp only [DiskInode.dataBlocksOf, maxDataBlocks_eq, blockSz] at hmax
  exact ⟨by omega, hfree⟩

/-- Every run of the closure that appends a record that returns appended it. -/
theorem appendDirent_ok {name : List UInt8} {inodeId : Nat} (hid : inodeId < 2 ^ 32)
    {d₁ : DiskInode} {s₂ : Nat → Block}
    (h : (appendDirent fs name inodeId (fs.diskInode store x)).runStore store = .ok ((d₁, ()), s₂)) :
    Appended fs store x name inodeId (fs.setDiskInode s₂ x d₁) := by
  obtain ⟨hroom, hfree⟩ := appendDirent_room hinv hx h
  obtain ⟨d₃, s₃, h₃, happ⟩ := runStore_appendDirent hinv hx name hid hroom hfree
  rw [h₃] at h
  obtain ⟨⟨rfl, -⟩, rfl⟩ := Prod.mk.inj (Except.ok.inj h)
  exact happ

/-! ### `link` -/

/-- `Inode::link` when the directory has a record named `old`: a record `(new, id)` is appended,
with `id` the inode of the first record named `old`, and the handle of that inode returned. -/
theorem runStore_link (hdir : (fs.diskInode store x).isDir) (old new : List UInt8) {inodeId : Nat}
    (hfound : ((fs.diskInode store x).records store).lookup old = some inodeId)
    (hroom : ((fs.diskInode store x).size / direntSz + 1) * direntSz ≤ maxDataBlocks * blockSz)
    (hfree : (fs.dataBitmap.allocated store).card + (fs.diskInode store x).blocksNumNeeded
      (((fs.diskInode store x).size / direntSz + 1) * direntSz) ≤ fs.dataBitmap.maximum) :
    ∃ store', ((ofInodeId fs x).link fs old new).runStore store =
        .ok (some (ofInodeId fs inodeId), store') ∧ Appended fs store x new inodeId store' := by
  have hid := (fs.diskInode store x).inodeId_lt_of_mem_records store (mem_of_lookup_eq_some hfound)
  obtain ⟨d₁, s₂, happ, hres⟩ := runStore_appendDirent hinv hx new hid hroom hfree
  refine ⟨_, ?_, hres⟩
  simp only [link, BlockIo.bind_eq]
  rw [BlockIo.runStore_bind_of_ok _ (runStore_lookup (hinv.owned x hx) hdir old), hfound]
  simp only [BlockIo.bind_eq]
  rw [BlockIo.runStore_bind_of_ok _ ((runStore_modifyDiskInode x _ store _ ()).mpr
    ⟨d₁, s₂, happ, rfl⟩)]
  rfl

/-- `Inode::link` when the directory has no record named `old`: nothing is written. -/
theorem runStore_link_of_lookup_eq_none (hdir : (fs.diskInode store x).isDir) {old : List UInt8}
    (new : List UInt8) (hnone : ((fs.diskInode store x).records store).lookup old = none) :
    ((ofInodeId fs x).link fs old new).runStore store = .ok (none, store) := by
  simp only [link, BlockIo.bind_eq]
  rw [BlockIo.runStore_bind_of_ok _ (runStore_lookup (hinv.owned x hx) hdir old), hnone]
  rfl

/-- Every run of `Inode::link` that returns either found no record named `old` and wrote
nothing, or appended a record for the inode of the first one. -/
theorem link_ok {old new : List UInt8} {r : Option Inode}
    (h : ((ofInodeId fs x).link fs old new).runStore store = .ok (r, store')) :
    ((fs.diskInode store x).records store).lookup old = none ∧ r = none ∧ store' = store ∨
      ∃ inodeId, ((fs.diskInode store x).records store).lookup old = some inodeId ∧
      r = some (ofInodeId fs inodeId) ∧ Appended fs store x new inodeId store' := by
  by_cases hdir : (fs.diskInode store x).isDir
  swap
  · simp only [link, BlockIo.bind_eq] at h
    rw [BlockIo.runStore_bind, runStore_lookup_of_not_isDir hdir] at h
    cases h
  cases hl : ((fs.diskInode store x).records store).lookup old with
  | none =>
    rw [runStore_link_of_lookup_eq_none hinv hx hdir new hl] at h
    obtain ⟨rfl, rfl⟩ := Prod.mk.inj (Except.ok.inj h)
    exact .inl ⟨rfl, rfl, rfl⟩
  | some inodeId =>
    have hid := (fs.diskInode store x).inodeId_lt_of_mem_records store (mem_of_lookup_eq_some hl)
    simp only [link, BlockIo.bind_eq] at h
    rw [BlockIo.runStore_bind_of_ok _ (runStore_lookup (hinv.owned x hx) hdir old), hl] at h
    obtain ⟨u, s, h₁, h₂⟩ := BlockIo.runStore_bind_eq_ok h
    obtain ⟨d₁, s₂, happ, rfl⟩ := (runStore_modifyDiskInode x _ store _ u).mp h₁
    obtain ⟨rfl, rfl⟩ := Prod.mk.inj (Except.ok.inj h₂)
    exact .inr ⟨inodeId, rfl, rfl, appendDirent_ok hinv hx hid happ⟩

/-! ### `create` -/

/-- `Inode::create` when the directory has a record named `name`: nothing is written. -/
theorem runStore_create_of_lookup_eq_some (hdir : (fs.diskInode store x).isDir)
    {name : List UInt8} {inodeId : Nat}
    (hfound : ((fs.diskInode store x).records store).lookup name = some inodeId) :
    ((ofInodeId fs x).create fs name).runStore store = .ok (none, store) := by
  simp only [create, BlockIo.bind_eq]
  rw [BlockIo.runStore_bind_of_ok _ (runStore_lookup (hinv.owned x hx) hdir name), hfound]
  rfl

/-- `Inode::create` with no record named `name`, a clear bit in the inode bitmap and the room to
grow the directory by one record: the inode `y` of the least clear bit is allocated with an empty
file record, a record `(name, y)` appended to the directory, and the handle of `y` returned. -/
theorem runStore_create (hdir : (fs.diskInode store x).isDir) (name : List UInt8)
    (hnone : ((fs.diskInode store x).records store).lookup name = none)
    (hinodes : (fs.inodes store).card < fs.inodeBitmap.maximum)
    (hroom : ((fs.diskInode store x).size / direntSz + 1) * direntSz ≤ maxDataBlocks * blockSz)
    (hfree : (fs.dataBitmap.allocated store).card + (fs.diskInode store x).blocksNumNeeded
      (((fs.diskInode store x).size / direntSz + 1) * direntSz) ≤ fs.dataBitmap.maximum) :
    ∃ y store₁ store', ((ofInodeId fs x).create fs name).runStore store =
        .ok (some (ofInodeId fs y), store') ∧ fs.NewInode store y store₁ ∧
      (∀ j < y, j ∈ fs.inodes store) ∧ (fs.diskInode store₁ y).type_ = .file ∧
      Appended fs store₁ x name y store' := by
  obtain ⟨y, s₁, halloc⟩ := fs.runStore_allocInode hinodes
  have hn := fs.newInode_of_allocInode hinv.wf halloc .file
  have hid : y < 2 ^ 32 :=
    lt_of_lt_of_le (fs.allocInode_ok halloc).1 hinv.wf.inodeBitmap_le_u32
  have hrec : fs.diskInode _ x = fs.diskInode store x := hn.records x fun h ↦ hn.fresh (h ▸ hx)
  obtain ⟨d₁, s₂, happ, hres⟩ := runStore_appendDirent (hinv.newInode hn)
    (by rw [hn.inodes_eq]; exact Finset.mem_insert_of_mem hx) name hid (by rwa [hrec])
    (by rwa [hn.dataBitmap_allocated hinv.wf, hrec])
  refine ⟨y, _, _, ?_, hn, (fs.allocInode_ok halloc).2.2.1, by
    rw [EasyFileSystem.diskInode_setDiskInode _ (DiskInode.valid_initializeAs _ _), if_pos rfl]
    rfl, hres⟩
  simp only [create, BlockIo.bind_eq]
  rw [BlockIo.runStore_bind_of_ok _ (runStore_lookup (hinv.owned x hx) hdir name), hnone]
  simp only [Option.isSome_none, Bool.false_eq_true, if_false, BlockIo.bind_eq]
  rw [BlockIo.runStore_bind_of_ok _ halloc, BlockIo.runStore_bind_of_ok _ (fs.runStore_initRecord y .file s₁),
    BlockIo.runStore_bind_of_ok _ ((runStore_modifyDiskInode x _ _ _ ()).mpr ⟨d₁, s₂, happ, rfl⟩)]
  rfl

/-- Every run of `Inode::create` that returns either found a record named `name` and wrote
nothing, or allocated an inode `y` with an empty file record and appended a record `(name, y)`. -/
theorem create_ok {name : List UInt8} {r : Option Inode}
    (h : ((ofInodeId fs x).create fs name).runStore store = .ok (r, store')) :
    r = none ∧ store' = store ∨ ∃ y store₁, r = some (ofInodeId fs y) ∧
      ((fs.diskInode store x).records store).lookup name = none ∧ fs.NewInode store y store₁ ∧
      (fs.diskInode store₁ y).type_ = .file ∧ Appended fs store₁ x name y store' := by
  by_cases hdir : (fs.diskInode store x).isDir
  swap
  · simp only [create, BlockIo.bind_eq] at h
    rw [BlockIo.runStore_bind, runStore_lookup_of_not_isDir hdir] at h
    cases h
  cases hl : ((fs.diskInode store x).records store).lookup name with
  | some inodeId =>
    rw [runStore_create_of_lookup_eq_some hinv hx hdir hl] at h
    obtain ⟨rfl, rfl⟩ := Prod.mk.inj (Except.ok.inj h)
    exact .inl ⟨rfl, rfl⟩
  | none =>
    simp only [create, BlockIo.bind_eq] at h
    rw [BlockIo.runStore_bind_of_ok _ (runStore_lookup (hinv.owned x hx) hdir name), hl] at h
    simp only [Option.isSome_none, Bool.false_eq_true, if_false, BlockIo.bind_eq] at h
    obtain ⟨y, s₁, halloc, h⟩ := BlockIo.runStore_bind_eq_ok h
    rw [BlockIo.runStore_bind_of_ok _ (fs.runStore_initRecord y .file s₁)] at h
    obtain ⟨u, s₃, h₁, h₂⟩ := BlockIo.runStore_bind_eq_ok h
    obtain ⟨d₁, s₂, happ, rfl⟩ := (runStore_modifyDiskInode x _ _ _ u).mp h₁
    simp only [BlockIo.runStore_bind, BlockIo.runStore_syncAll, BlockIo.pure_eq,
      BlockIo.runStore_pure, Except.ok.injEq, Prod.mk.injEq] at h₂
    obtain ⟨rfl, rfl⟩ := h₂
    have hn := fs.newInode_of_allocInode hinv.wf halloc .file
    have hid : y < 2 ^ 32 :=
      lt_of_lt_of_le (fs.allocInode_ok halloc).1 hinv.wf.inodeBitmap_le_u32
    refine .inr ⟨y, _, rfl, rfl, hn, ?_, appendDirent_ok (hinv.newInode hn)
      (by rw [hn.inodes_eq]; exact Finset.mem_insert_of_mem hx) hid happ⟩
    rw [EasyFileSystem.diskInode_setDiskInode _ (DiskInode.valid_initializeAs _ _), if_pos rfl]
    rfl

/-! ### `unlink` -/

/-- `Inode::unlink` when the directory has no record named `name`: nothing is written. -/
theorem runStore_unlink_of_lookup_eq_none (hdir : (fs.diskInode store x).isDir)
    {name : List UInt8} (hnone : ((fs.diskInode store x).records store).lookup name = none) :
    ((ofInodeId fs x).unlink name).runStore store = .ok (-1, store) := by
  simp only [unlink, BlockIo.bind_eq]
  rw [BlockIo.runStore_bind_of_ok _ (runStore_lookup (hinv.owned x hx) hdir name), hnone]
  rfl

/-- `Inode::unlink` when the directory has a record named `name`: the last record is copied over
the first record with the name and the directory loses one record, its size cut by one record
and every other field kept; the data bitmap is left as it was. -/
theorem runStore_unlink (hdir : (fs.diskInode store x).isDir) (name : List UInt8) {inodeId : Nat}
    (hfound : ((fs.diskInode store x).records store).lookup name = some inodeId) :
    ∃ store', ((ofInodeId fs x).unlink name).runStore store = .ok (0, store') ∧
      fs.Step store x (fs.diskInode store' x) store' ∧
      fs.diskInode store' x =
        { fs.diskInode store x with size := (fs.diskInode store x).size - direntSz } ∧
      (fs.diskInode store' x).records store' = swapRemove ((fs.diskInode store x).records store)
        (((fs.diskInode store x).records store).findIdx fun r ↦ r.1 == name) ∧
      fs.dataInUse store' = fs.dataInUse store := by
  have hwf := hinv.wf
  have hxlt := EasyFileSystem.lt_of_mem_inodes hx
  have hown := hinv.owned x hx
  have h32 : direntSz = 32 := rfl
  set d := fs.diskInode store x with hd
  set i := (d.records store).findIdx fun r ↦ r.1 == name
  have hilt : i < d.size / direntSz := by
    simpa using List.findIdx_lt_length_of_exists ⟨_, mem_of_lookup_eq_some hfound, by simp⟩
  have hname : (d.record store i).1 = name := by
    have := @List.findIdx_getElem _ (fun r ↦ r.1 == name) (d.records store) (by simpa using hilt)
    rw [DiskInode.getElem_records] at this
    simpa using this
  have hpre : ∀ j ∈ List.range i, j < d.size / direntSz ∧ (d.record store j).1 ≠ name :=
    fun j hj ↦ by
      rw [List.mem_range] at hj
      refine ⟨by omega, fun h ↦ ?_⟩
      have := List.not_of_lt_findIdx hj
      rw [DiskInode.getElem_records] at this
      simp [h] at this
  have hsplit : List.range (d.size / direntSz) =
      List.range i ++ i :: List.range' (i + 1) (d.size / direntSz - (i + 1)) := by
    have := List.range'_append_1 0 i (d.size / direntSz - i)
    rw [Nat.zero_add, Nat.sub_add_cancel hilt.le,
      show d.size / direntSz - i = (d.size / direntSz - (i + 1)) + 1 by omega, List.range'_succ] at this
    rw [List.range_eq_range', List.range_eq_range', ← this]
  have hend : direntSz * i + direntSz ≤ d.size := by rw [h32] at hilt ⊢; omega
  obtain ⟨s₂, hrun, hw⟩ := d.runStore_writeAt store hown.dataBlocks_le hown.nodup
    (d.recordBytes store (d.size / direntSz - 1)) (show direntSz * i ≤ d.size by omega)
    (by have := hown.size_le; simp only [maxDataBlocks_eq, blockSz, h32] at this hend ⊢; omega)
  rw [DiskInode.length_recordBytes, Nat.min_eq_left hend] at hw hrun
  obtain ⟨hown₂, huse₂, hframe₂⟩ := hown.written hwf hw
  set d' : DiskInode := { d with size := d.size - direntSz }
  obtain ⟨hown', hpre'⟩ := hown₂.shrink (Nat.sub_le d.size direntSz)
  have hstep₁ : fs.Step store x d' (fs.setDiskInode s₂ x d') :=
    hinv.step_setDiskInode hx hown' (DiskInode.type_withSize d _)
      (fun b hb ↦ .inr (.inl (hframe₂ b hb)))
      (fun b hb ↦ .inl (by rw [← hw.addressed_eq]; exact hpre'.subset hb))
      (fun b hb _ ↦ by rwa [huse₂])
  have hstep : fs.Step store x (fs.diskInode (fs.setDiskInode s₂ x d') x)
      (fs.setDiskInode s₂ x d') := by rwa [hstep₁.record]
  refine ⟨_, ?_, hstep, hstep₁.record, ?_,
    (EasyFileSystem.dataInUse_setDiskInode hwf hxlt d').trans huse₂⟩
  · simp only [unlink, BlockIo.bind_eq]
    rw [BlockIo.runStore_bind_of_ok _ (runStore_lookup hown hdir name), hfound]
    simp only [BlockIo.bind_eq]
    rw [BlockIo.runStore_bind_of_ok _ ((runStore_modifyDiskInode x _ _ _ ()).mpr ⟨d', s₂, ?_, rfl⟩)]
    · rfl
    rw [BlockIo.runStore_bind, hsplit, DiskInode.runStore_unlinkLoop_found hown.size_le name hilt
      hname _ _ DirEntry.empty rfl hpre]
    simp only [BlockIo.bind_eq, BlockIo.runStore_bind, hrun]
    rfl
  · have hview := (hown₂.view_setDiskInode hwf hxlt d').2
    rw [hstep₁.record, DiskInode.records, DiskInode.records, swapRemove_map_range _ hilt,
      show d'.size / direntSz = d.size / direntSz - 1 by simp only [d', h32]; omega]
    refine List.map_congr_left fun j hj ↦ ?_
    rw [List.mem_range] at hj
    -- byte `k` of record `j` after the write-back, as the write left it
    have hbyte : ∀ k < direntSz, d'.byteAt (fs.setDiskInode s₂ x d') (direntSz * j + k) =
        if direntSz * i ≤ direntSz * j + k ∧ direntSz * j + k < direntSz * i + direntSz then
          (d.recordBytes store (d.size / direntSz - 1)).getD (0 + (direntSz * j + k - direntSz * i)) 0
        else d.byteAt store (direntSz * j + k) := fun k hk ↦ by
      have hjk : direntSz * j + k < d.size := by rw [h32] at hj hk ⊢; omega
      rw [show d'.byteAt _ = d.byteAt _ from DiskInode.byteAt_withSize d _ _, hview _ hjk, hw.bytes _ hjk]
    split_ifs with hji
    · refine DiskInode.record_congr fun k hk ↦ ?_
      rw [hbyte k hk, if_pos (by rw [h32] at hk ⊢; omega), Nat.zero_add, hji,
        Nat.add_sub_cancel_left, DiskInode.getD_recordBytes _ _ _ hk]
    · refine DiskInode.record_congr fun k hk ↦ ?_
      rw [hbyte k hk, if_neg (by rw [h32] at hk ⊢; omega)]

/-- Every run of `Inode::unlink` that returns either found no record named `name`, returned `-1`
and wrote nothing, or removed the first record with the name as `runStore_unlink` says. -/
theorem unlink_ok {name : List UInt8} {r : Int}
    (h : ((ofInodeId fs x).unlink name).runStore store = .ok (r, store')) :
    ((fs.diskInode store x).records store).lookup name = none ∧ r = -1 ∧ store' = store ∨
      r = 0 ∧ (∃ inodeId, ((fs.diskInode store x).records store).lookup name = some inodeId) ∧
      fs.Step store x (fs.diskInode store' x) store' ∧
      fs.diskInode store' x =
        { fs.diskInode store x with size := (fs.diskInode store x).size - direntSz } ∧
      (fs.diskInode store' x).records store' = swapRemove ((fs.diskInode store x).records store)
        (((fs.diskInode store x).records store).findIdx fun r ↦ r.1 == name) ∧
      fs.dataInUse store' = fs.dataInUse store := by
  by_cases hdir : (fs.diskInode store x).isDir
  swap
  · simp only [unlink, BlockIo.bind_eq] at h
    rw [BlockIo.runStore_bind, runStore_lookup_of_not_isDir hdir] at h
    cases h
  cases hl : ((fs.diskInode store x).records store).lookup name with
  | none =>
    rw [runStore_unlink_of_lookup_eq_none hinv hx hdir hl] at h
    obtain ⟨rfl, rfl⟩ := Prod.mk.inj (Except.ok.inj h)
    exact .inl ⟨rfl, rfl, rfl⟩
  | some inodeId =>
    obtain ⟨s', hrun, hres⟩ := runStore_unlink hinv hx hdir name hl
    rw [hrun] at h
    obtain ⟨rfl, rfl⟩ := Prod.mk.inj (Except.ok.inj h)
    exact .inr ⟨rfl, ⟨inodeId, rfl⟩, hres⟩

end Append

end Inode

end Rcore.EasyFs
