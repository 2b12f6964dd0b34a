import Rcore.EasyFs.Links

/-!
# Directories as lists of entries

A directory of `vfs.rs` is the array of `DirEntry` records in its first `size / DIRENT_SZ` slots,
and `EasyFileSystem.entries` reads it as the list of its entries, pairs of a name and an inode id.
On that list the operations of `vfs.rs` are list operations (`Entries`): `find` is the first entry
with the name, `create` appends an entry for a fresh inode unless the name is taken, `link`
appends an entry for the inode of the first entry with the old name, `unlink` moves the last entry
over the first one with the name, and `get_link_num` counts the entries of an inode.

On every directory of a reachable state the code computes these list operations
(`directory_refines_entries`), for names `DirEntry::new` stores as they are: at most 28 bytes, none
of them zero. A longer name, or one with a zero byte, is stored cut (`create_stores_cut_name`).
The inode `create` allocates was clear in the inode bitmap, and along a run whose `write_at` calls
go to files no entry of any directory names it, since every entry then names an allocated inode
(`RecordsAllocated`). The restriction cannot be dropped: a `write_at` on a directory can store an
entry for a free inode, which the next `create` allocates (`create_binds_forged_record`).
The count `get_link_num` returns follows the entries through `link` and `unlink`
(`getLinkNum_counts_entries`).

Two properties that the list operations do not promise fail in the code: `link` appends its new
name without looking it up, so a directory can hold two entries with one name
(`link_duplicates_name`); and `unlink` shrinks the directory by one record without giving back a
block that falls out of its size, so the data bitmap keeps a block no inode addresses
(`unlink_leaks_block`).
-/

set_option autoImplicit false
set_option relaxedAutoImplicit false

namespace Rcore.EasyFs

/-- A directory as the list of its entries, each a name and an inode id. -/
abbrev Entries := List (List UInt8 × Nat)

namespace Entries

variable (D : Entries)

/-- The inode of the first entry with the name. -/
def find (name : List UInt8) : Option Nat := D.lookup name

/-- The names of the entries, in order. -/
def names : List (List UInt8) := D.map Prod.fst

/-- Nothing when the name is taken; otherwise an entry for the fresh inode `y`, whose id is
returned. -/
def create (name : List UInt8) (y : Nat) : Option Nat × Entries :=
  if name ∈ names D then (none, D) else (some y, D ++ [(name, y)])

/-- Nothing when no entry has the old name; otherwise an entry of the new name for the inode of
the first entry with the old name, whose id is returned. -/
def link (oldName newName : List UInt8) : Option Nat × Entries :=
  match find D oldName with
  | none => (none, D)
  | some inodeId => (some inodeId, D ++ [(newName, inodeId)])

/-- `-1` when no entry has the name; otherwise `0`, with the last entry moved over the first entry
with the name. -/
def unlink (name : List UInt8) : Int × Entries :=
  if name ∈ names D then (0, swapRemove D (D.findIdx fun e ↦ e.1 == name)) else (-1, D)

/-- The number of entries of inode `inodeId`. -/
def linkCount (inodeId : Nat) : Nat := D.countP fun e ↦ e.2 == inodeId

example : linkCount (link [([97], 1)] [97] [98]).2 1 = 2 := by decide

theorem find_eq_none_iff {name : List UInt8} : find D name = none ↔ name ∉ names D :=
  lookup_eq_none_iff

theorem find_of_mem_names {name : List UInt8} (h : name ∈ names D) :
    ∃ inodeId, find D name = some inodeId :=
  Option.ne_none_iff_exists'.mp ((find_eq_none_iff D).not.mpr (not_not.mpr h))

theorem mem_names_of_find {name : List UInt8} {inodeId : Nat} (h : find D name = some inodeId) :
    name ∈ names D :=
  not_not.mp ((find_eq_none_iff D).not.mp (h ▸ Option.some_ne_none inodeId))

/-- The first entry with the name is the one `find` reads. -/
theorem getElem?_findIdx {name : List UInt8} {inodeId : Nat} (h : find D name = some inodeId) :
    D[D.findIdx fun e ↦ e.1 == name]? = some (name, inodeId) := by
  induction D with
  | nil => cases h
  | cons e D ih =>
    obtain ⟨k, v⟩ := e
    rw [find, List.lookup_cons] at h
    rw [List.findIdx_cons]
    by_cases hk : name = k
    · subst hk
      simp only [beq_self_eq_true, cond_true, List.getElem?_cons_zero, Option.some.injEq] at h ⊢
      rw [h]
    · rw [beq_false_of_ne hk] at h
      simp only [beq_false_of_ne (Ne.symm hk), cond_false, List.getElem?_cons_succ]
      exact ih h

theorem linkCount_append (e : List UInt8 × Nat) (inodeId : Nat) :
    linkCount (D ++ [e]) inodeId = linkCount D inodeId + if e.2 = inodeId then 1 else 0 := by
  simp only [linkCount, List.countP_append, List.countP_singleton, beq_iff_eq]

/-- `link` raises the count of the inode it links by one and keeps every other count. -/
theorem linkCount_link (oldName newName : List UInt8) (inodeId : Nat) :
    linkCount (link D oldName newName).2 inodeId =
      linkCount D inodeId + if find D oldName = some inodeId then 1 else 0 := by
  rw [link]
  cases find D oldName with
  | none => rfl
  | some y => simp only [linkCount_append, Option.some.injEq]

/-- `unlink` lowers the count of the inode of the entry it removes by one and keeps every other
count. -/
theorem linkCount_unlink (name : List UInt8) (inodeId : Nat) :
    linkCount (unlink D name).2 inodeId =
      linkCount D inodeId - if find D name = some inodeId then 1 else 0 := by
  rw [unlink]
  by_cases hn : name ∈ names D
  · obtain ⟨y, hfind⟩ := find_of_mem_names D hn
    obtain ⟨hi, hentry⟩ := List.getElem?_eq_some_iff.mp (getElem?_findIdx D hfind)
    have hcount := countP_eq_countP_eraseIdx (fun e : List UInt8 × Nat ↦ e.2 == inodeId) hi
    rw [hentry] at hcount
    rw [if_pos hn, hfind]
    simp only [linkCount, (swapRemove_perm hi).countP_eq, Option.some.injEq, beq_iff_eq] at hcount ⊢
    split_ifs at hcount ⊢ <;> omega
  · rw [if_neg hn, (find_eq_none_iff D).mpr hn, if_neg nofun, Nat.sub_zero]

end Entries

/-- A name `DirEntry::new` stores as it is: at most 28 bytes, none of them zero. -/
def NameFits (name : List UInt8) : Prop := name.length ≤ nameCapacity ∧ ∀ b ∈ name, b ≠ 0

instance (name : List UInt8) : Decidable (NameFits name) :=
  inferInstanceAs (Decidable (_ ∧ _))

example : NameFits [97] ∧ ¬ NameFits [97, 0] := by decide

namespace EasyFileSystem

open Inode

variable {fs : EasyFileSystem} {store store' : Nat → Block} {x : Nat}

/-- The entries of directory `x`: its records read as a list. -/
def entries (fs : EasyFileSystem) (store : Nat → Block) (x : Nat) : Entries :=
  (fs.diskInode store x).records store

/-- Directory `x` can take one more record: it stays within the largest file, and the data bitmap
has the blocks its growth takes. -/
def RecordRoom (fs : EasyFileSystem) (store : Nat → Block) (x : Nat) : Prop :=
  ((fs.diskInode store x).size / direntSz + 1) * direntSz ≤ maxDataBlocks * blockSz ∧
    (fs.dataBitmap.allocated store).card + (fs.diskInode store x).blocksNumNeeded
      (((fs.diskInode store x).size / direntSz + 1) * direntSz) ≤ fs.dataBitmap.maximum

/-- A directory of one record has room for a second: it fits in the block the directory has. -/
theorem recordRoom_of_one_record (hcount : (fs.diskInode store x).size / direntSz = 1) :
    fs.RecordRoom store x := by
  have hneeded : (fs.diskInode store x).blocksNumNeeded ((1 + 1) * direntSz) = 0 := by
    have := DiskInode.totalBlocks_mono
      (show 32 ≤ (fs.diskInode store x).size by simp only [direntSz] at hcount; omega)
    rw [DiskInode.blocksNumNeeded]
    exact Nat.sub_eq_zero_of_le (le_of_eq_of_le (by decide) this)
  rw [RecordRoom, hcount, hneeded]
  exact ⟨by rw [maxDataBlocks_eq]; decide, (Nat.add_zero _).trans_le (card_allocated_le _ store)⟩

/-- The record `DirEntry::new` stores for a name that fits is the name. -/
theorem records_eq_of_appended {name : List UInt8} {inodeId : Nat} (hname : NameFits name)
    (happ : fs.Appended store x name inodeId store') :
    fs.entries store' x = fs.entries store x ++ [(name, inodeId)] := by
  rw [entries, entries, happ.records_eq, DirEntry.nameOf_new hname.1 hname.2]

section Refinement

variable (hinv : fs.Inv store) (hx : x ∈ fs.inodes store) (hdir : (fs.diskInode store x).isDir)
include hinv hx hdir

/-- `Inode::create` computes `Entries.create` on the entries of the directory. -/
theorem create_refines {name : List UInt8} (hname : NameFits name)
    (hinodes : (fs.inodes store).card < fs.inodeBitmap.maximum) (hroom : fs.RecordRoom store x) :
    ∃ y store', ((ofInodeId fs x).create fs name).runStore store =
        .ok ((Entries.create (fs.entries store x) name y).1.map (ofInodeId fs), store') ∧
      fs.entries store' x = (Entries.create (fs.entries store x) name y).2 ∧
      (name ∈ Entries.names (fs.entries store x) → store' = store) ∧
      (name ∉ Entries.names (fs.entries store x) → y ∉ fs.inodes store ∧
        fs.inodes store' = insert y (fs.inodes store) ∧
        (fs.diskInode store' y).type_ = .file ∧ (fs.diskInode store' y).size = 0) := by
  by_cases hn : name ∈ Entries.names (fs.entries store x)
  · obtain ⟨inodeId, hfound⟩ := Entries.find_of_mem_names _ hn
    refine ⟨0, store, ?_, by rw [Entries.create, if_pos hn], fun _ ↦ rfl, fun h ↦ absurd hn h⟩
    rw [runStore_create_of_lookup_eq_some hinv hx hdir hfound, Entries.create, if_pos hn]
    rfl
  · obtain ⟨y, s₁, s', hrun, hnew, -, htype, happ⟩ := Inode.runStore_create hinv hx hdir name
      ((Entries.find_eq_none_iff _).mpr hn) hinodes hroom.1 hroom.2
    have hy : y ∈ fs.inodes s₁ := by rw [hnew.inodes_eq]; exact Finset.mem_insert_self y _
    have hyx : y ≠ x := fun h ↦ hnew.fresh (h ▸ hx)
    have hrec := happ.step.records y hy hyx
    refine ⟨y, s', by rw [hrun, Entries.create, if_neg hn]; rfl, ?_, fun h ↦ absurd h hn,
      fun _ ↦ ⟨hnew.fresh, by rw [happ.step.inodes_eq, hnew.inodes_eq],
        by rw [hrec]; exact htype, by rw [hrec]; exact hnew.size_eq⟩⟩
    rw [records_eq_of_appended hname happ, Entries.create, if_neg hn, entries, entries,
      hnew.records x (Ne.symm hyx),
      DiskInode.records_congr (hnew.view hinv.wf (hinv.owned x hx)).2]

/-- `Inode::link` computes `Entries.link` on the entries of the directory. -/
theorem link_refines (oldName : List UInt8) {newName : List UInt8} (hname : NameFits newName)
    (hroom : fs.RecordRoom store x) :
    ∃ store', ((ofInodeId fs x).link fs oldName newName).runStore store =
        .ok ((Entries.link (fs.entries store x) oldName newName).1.map (ofInodeId fs), store') ∧
      fs.entries store' x = (Entries.link (fs.entries store x) oldName newName).2 ∧
      (oldName ∉ Entries.names (fs.entries store x) → store' = store) := by
  cases hl : Entries.find (fs.entries store x) oldName with
  | none =>
    refine ⟨store, ?_, by rw [Entries.link, hl], fun _ ↦ rfl⟩
    rw [runStore_link_of_lookup_eq_none hinv hx hdir newName hl, Entries.link, hl]
    rfl
  | some inodeId =>
    obtain ⟨s', hrun, happ⟩ := runStore_link hinv hx hdir oldName newName hl hroom.1 hroom.2
    exact ⟨s', by rw [hrun, Entries.link, hl]; rfl, by
      rw [records_eq_of_appended hname happ, Entries.link, hl],
      fun h ↦ absurd (Entries.mem_names_of_find _ hl) h⟩

/-- `Inode::unlink` computes `Entries.unlink` on the entries of the directory. -/
theorem unlink_refines (name : List UInt8) :
    ∃ store', ((ofInodeId fs x).unlink name).runStore store =
        .ok ((Entries.unlink (fs.entries store x) name).1, store') ∧
      fs.entries store' x = (Entries.unlink (fs.entries store x) name).2 ∧
      (name ∉ Entries.names (fs.entries store x) → store' = store) := by
  by_cases hn : name ∈ Entries.names (fs.entries store x)
  · obtain ⟨inodeId, hfound⟩ := Entries.find_of_mem_names _ hn
    obtain ⟨s', hrun, -, -, hrec, -⟩ := runStore_unlink hinv hx hdir name hfound
    refine ⟨s', by rw [hrun, Entries.unlink, if_pos hn], ?_, fun h ↦ absurd hn h⟩
    rw [entries, hrec, Entries.unlink, if_pos hn]
    rfl
  · refine ⟨store, ?_, by rw [Entries.unlink, if_neg hn], fun _ ↦ rfl⟩
    rw [runStore_unlink_of_lookup_eq_none hinv hx hdir ((Entries.find_eq_none_iff _).mpr hn),
      Entries.unlink, if_neg hn]

end Refinement

/-! ### The refinement over reachable states -/

/-- On every directory of a reachable state, the operations of `vfs.rs` compute the list
operations of `Entries` on its entries, for new names that fit a record, when there is room:
`find` and `ls` read the entries; `create` appends an entry for a fresh inode, initialised as an
empty file, unless the name is taken; `link` appends an entry for the inode of the first entry
with the old name; `unlink` moves the last entry over the first one with the name. A call that
changes no entry writes nothing. Along a run whose `write_at` calls go to files, the inode `create`
allocates is bound by no entry of any directory. -/
theorem directory_refines_entries (hr : fs.Reachable store) (hx : x ∈ fs.inodes store)
    (hdir : (fs.diskInode store x).isDir) :
    (∀ name, ((ofInodeId fs x).find fs name).runStore store =
      .ok ((Entries.find (fs.entries store x) name).map (ofInodeId fs), store)) ∧
    ((ofInodeId fs x).ls).runStore store = .ok (Entries.names (fs.entries store x), store) ∧
    (∀ name, NameFits name → (fs.inodes store).card < fs.inodeBitmap.maximum →
      fs.RecordRoom store x → ∃ y store', ((ofInodeId fs x).create fs name).runStore store =
        .ok ((Entries.create (fs.entries store x) name y).1.map (ofInodeId fs), store') ∧
      fs.entries store' x = (Entries.create (fs.entries store x) name y).2 ∧
      (name ∈ Entries.names (fs.entries store x) → store' = store) ∧
      (name ∉ Entries.names (fs.entries store x) → y ∉ fs.inodes store ∧
        fs.inodes store' = insert y (fs.inodes store) ∧
        (fs.diskInode store' y).type_ = .file ∧ (fs.diskInode store' y).size = 0 ∧
        (fs.ReachableUnder fs.WritesFiles store → ∀ z ∈ fs.inodes store,
          (fs.diskInode store z).isDir → ∀ e ∈ fs.entries store z, e.2 ≠ y))) ∧
    (∀ oldName newName, NameFits newName → fs.RecordRoom store x →
      ∃ store', ((ofInodeId fs x).link fs oldName newName).runStore store =
        .ok ((Entries.link (fs.entries store x) oldName newName).1.map (ofInodeId fs), store') ∧
      fs.entries store' x = (Entries.link (fs.entries store x) oldName newName).2 ∧
      (oldName ∉ Entries.names (fs.entries store x) → store' = store)) ∧
    (∀ name, ∃ store', ((ofInodeId fs x).unlink name).runStore store =
        .ok ((Entries.unlink (fs.entries store x) name).1, store') ∧
      fs.entries store' x = (Entries.unlink (fs.entries store x) name).2 ∧
      (name ∉ Entries.names (fs.entries store x) → store' = store)) := by
  have hinv := hr.inv
  have hown := hinv.owned x hx
  refine ⟨runStore_find hown hdir, runStore_ls hown, fun _ hname hinodes hroom ↦ ?_,
    fun oldName _ hname hroom ↦ link_refines hinv hx hdir oldName hname hroom,
    unlink_refines hinv hx hdir⟩
  obtain ⟨y, s', hrun, hent, hkeep, hnew⟩ := create_refines hinv hx hdir hname hinodes hroom
  refine ⟨y, s', hrun, hent, hkeep, fun hn ↦ ?_⟩
  obtain ⟨hfresh, hins, htype, hsize⟩ := hnew hn
  -- every entry of an allocated directory names an allocated inode, and `y` was not allocated
  exact ⟨hfresh, hins, htype, hsize, fun hw z hz hzdir e he hey ↦
    hfresh (hey ▸ hw.recordsAllocated.2 z hz hzdir e he)⟩

/-- `ls` on the empty root of the formatted device. -/
theorem directory_refines_entries_root :
    ∃ store, (layout 8192 1).Reachable store ∧ 0 ∈ (layout 8192 1).inodes store ∧
      ((layout 8192 1).diskInode store 0).isDir ∧
      ((ofInodeId (layout 8192 1) 0).ls).runStore store = .ok ([], store) := by
  obtain ⟨s, hr, hinodes, hdir, hsize, -⟩ := reachable_format (fun _ ↦ zeroBlock)
  have h0 : 0 ∈ (layout 8192 1).inodes s := by rw [hinodes]; exact Finset.mem_singleton_self 0
  refine ⟨s, hr, h0, hdir, ?_⟩
  rw [(directory_refines_entries hr h0 hdir).2.1, entries, DiskInode.records, hsize]
  rfl

/-- A name with a zero byte is stored cut: `create` of `"a\0"` in the empty root of the formatted
device returns a new inode, but the entry it appends is named `"a"`, not `"a\0"` as
`Entries.create` has it. -/
theorem create_stores_cut_name :
    ∃ store₀ store y, (layout 8192 1).Reachable store₀ ∧ (layout 8192 1).entries store₀ 0 = [] ∧
      ((ofInodeId (layout 8192 1) 0).create (layout 8192 1) [97, 0]).runStore store₀ =
        .ok (some (ofInodeId (layout 8192 1) y), store) ∧
      (layout 8192 1).entries store 0 = [([97], y)] ∧
      (layout 8192 1).entries store 0 ≠ (Entries.create [] [97, 0] y).2 := by
  obtain ⟨s₀, s, y, hr₀, hnil, hrun, -, -, -, -, hrec⟩ :=
    reachable_root_create (fun _ ↦ zeroBlock) [97, 0]
  have hent : (layout 8192 1).entries s 0 = [([97], y)] := hrec
  refine ⟨s₀, s, y, hr₀, hnil, hrun, hent, ?_⟩
  rw [hent]
  simp [Entries.create, Entries.names]

/-- A `write_at` on a directory can store a record for an inode that is not allocated, and
`create` then allocates that inode: after `write_at(0, DirEntry::new("a", 1).as_bytes())` on the
empty root of the formatted device, the root's one entry names inode 1, which is free, and
`create("b")` allocates inode 1, so the fresh inode is bound by an entry before the call. -/
theorem create_binds_forged_record :
    ∃ store₀ store₁ store, (layout 8192 1).Reachable store₀ ∧
      ((ofInodeId (layout 8192 1) 0).writeAt (layout 8192 1) 0
        (DirEntry.new [97] 1).asBytes).runStore store₀ = .ok (32, store₁) ∧
      (layout 8192 1).Reachable store₁ ∧ ((layout 8192 1).diskInode store₁ 0).isDir ∧
      1 ∉ (layout 8192 1).inodes store₁ ∧ (layout 8192 1).entries store₁ 0 = [([97], 1)] ∧
      ((ofInodeId (layout 8192 1) 0).create (layout 8192 1) [98]).runStore store₁ =
        .ok (some (ofInodeId (layout 8192 1) 1), store) ∧
      (layout 8192 1).entries store 0 = [([97], 1), ([98], 1)] := by
  obtain ⟨s₀, hr₀, hinodes, hdir, hsize₀, hdata⟩ := reachable_format (fun _ ↦ zeroBlock)
  have h0 : 0 ∈ (layout 8192 1).inodes s₀ := by rw [hinodes]; exact Finset.mem_singleton_self 0
  have hlen : (DirEntry.new [97] 1).asBytes.length = 32 :=
    DirEntry.length_asBytes (DirEntry.length_name_new _ _)
  obtain ⟨s₁, hrun, hstep, hsize, hbytes, -⟩ := Inode.runStore_writeAt hr₀.inv h0
    (DirEntry.new [97] 1).asBytes (show 0 < maxDataBlocks * blockSz by decide)
    (by rw [hlen]; decide)
    (by rw [Finset.image_eq_empty.mp hdata, Finset.card_empty, DiskInode.blocksNumNeeded, hsize₀,
          hlen]
        decide)
  rw [hlen] at hrun hsize hbytes
  rw [hsize₀, Nat.zero_add, Nat.zero_max] at hsize
  have hr₁ : (layout 8192 1).Reachable s₁ :=
    .step (.writeAt 0 _) hr₀ h0 (BlockIo.runStore_discard_of_ok hrun)
  have hinodes₁ : (layout 8192 1).inodes s₁ = {0} := by rw [hstep.inodes_eq, hinodes]
  have hx : 0 ∈ (layout 8192 1).inodes s₁ := by rw [hinodes₁]; exact Finset.mem_singleton_self 0
  have hdir₁ : ((layout 8192 1).diskInode s₁ 0).isDir := by
    rw [DiskInode.isDir, hstep.type_eq]; exact hdir
  -- the one record of the root is the forged entry
  have hentry : ((layout 8192 1).diskInode s₁ 0).entry s₁ 0 = DirEntry.new [97] 1 := by
    rw [DiskInode.entry, DiskInode.recordBytes, show direntSz * 0 + direntSz = 0 + 32 from rfl,
      Nat.mul_zero, hbytes, DirEntry.ofBytes_asBytes (DirEntry.length_name_new _ _) (by decide)]
  have hent₁ : (layout 8192 1).entries s₁ 0 = [([97], 1)] := by
    rw [entries, DiskInode.records, hsize]
    show [((layout 8192 1).diskInode s₁ 0).record s₁ 0] = _
    rw [DiskInode.record, hentry, DirEntry.nameOf_new (by decide) (by decide)]
    rfl
  -- `create` allocates the least free inode, inode 1
  have hroom : (layout 8192 1).RecordRoom s₁ 0 := recordRoom_of_one_record (by rw [hsize]; rfl)
  obtain ⟨y, s₂, s, hcreate, hn, hleast, -, happ⟩ := Inode.runStore_create hr₁.inv hx hdir₁ [98]
    (show ((layout 8192 1).entries s₁ 0).lookup [98] = none by rw [hent₁]; rfl)
    (by rw [hinodes₁, Finset.card_singleton]; decide) hroom.1 hroom.2
  obtain rfl : y = 1 := by
    have hy : y ≠ 0 := fun h ↦ hn.fresh (h ▸ hx)
    by_contra hy'
    exact absurd (hleast 1 (by omega)) (by rw [hinodes₁]; decide)
  refine ⟨s₀, s₁, s, hr₀, hrun, hr₁, hdir₁, hn.fresh, hent₁, hcreate, ?_⟩
  rw [records_eq_of_appended (by decide) happ, entries, hn.records 0 (by decide),
    DiskInode.records_congr (hn.view hr₁.inv.wf (hr₁.inv.owned 0 hx)).2, ← entries, hent₁]
  rfl

/-- Two clauses of the list model fail on the formatted device: `create` of a name with a zero byte
appends an entry with another name, and the inode `create` allocates can already be named by an
entry that a `write_at` on the directory stored. -/
theorem create_clauses_fail :
    (∃ store₀ store y, (layout 8192 1).Reachable store₀ ∧ (layout 8192 1).entries store₀ 0 = [] ∧
      ((ofInodeId (layout 8192 1) 0).create (layout 8192 1) [97, 0]).runStore store₀ =
        .ok (some (ofInodeId (layout 8192 1) y), store) ∧
      (layout 8192 1).entries store 0 = [([97], y)] ∧
      (layout 8192 1).entries store 0 ≠ (Entries.create [] [97, 0] y).2) ∧
    ∃ store₀ store₁ store, (layout 8192 1).Reachable store₀ ∧
      ((ofInodeId (layout 8192 1) 0).writeAt (layout 8192 1) 0
        (DirEntry.new [97] 1).asBytes).runStore store₀ = .ok (32, store₁) ∧
      (layout 8192 1).Reachable store₁ ∧ ((layout 8192 1).diskInode store₁ 0).isDir ∧
      1 ∉ (layout 8192 1).inodes store₁ ∧ (layout 8192 1).entries store₁ 0 = [([97], 1)] ∧
      ((ofInodeId (layout 8192 1) 0).create (layout 8192 1) [98]).runStore store₁ =
        .ok (some (ofInodeId (layout 8192 1) 1), store) ∧
      (layout 8192 1).entries store 0 = [([97], 1), ([98], 1)] :=
  ⟨create_stores_cut_name, create_binds_forged_record⟩

/-! ### Link counts -/

/-- `get_link_num` at the position of inode `y` counts the entries of `y`: positions of distinct
inodes differ. -/
theorem runStore_getLinkNum_pos (hd : fs.Owned store (fs.diskInode store x)) (y : Nat) :
    ((ofInodeId fs x).getLinkNum fs (fs.getDiskInodePos y).1 (fs.getDiskInodePos y).2).runStore
      store = .ok (Entries.linkCount (fs.entries store x) y, store) := by
  rw [runStore_getLinkNum hd, Entries.linkCount, entries]
  congr 2
  exact List.countP_congr fun e _ ↦ by
    simp only [Prod.mk.eta, decide_eq_true_eq, beq_iff_eq]
    exact ⟨getDiskInodePos_injective, fun h ↦ h ▸ rfl⟩

/-- For every directory of a reachable state, `get_link_num` at the position of an inode counts
the entries bound to it, and at an address that is no inode's position it returns 0. A `link`
that returns raises the count of the inode of the first entry with the old name by one, an
`unlink` that returns lowers the count of the inode of the entry it removes by one, and neither
changes the count of any other inode. -/
theorem getLinkNum_counts_entries (hr : fs.Reachable store) (hx : x ∈ fs.inodes store) :
    (∀ y, ((ofInodeId fs x).getLinkNum fs (fs.getDiskInodePos y).1
      (fs.getDiskInodePos y).2).runStore store =
        .ok (Entries.linkCount (fs.entries store x) y, store)) ∧
    (∀ blockId blockOffset, (∀ y, fs.getDiskInodePos y ≠ (blockId, blockOffset)) →
      ((ofInodeId fs x).getLinkNum fs blockId blockOffset).runStore store = .ok (0, store)) ∧
    (∀ oldName newName r store',
      ((ofInodeId fs x).link fs oldName newName).runStore store = .ok (r, store') →
      ∀ y, ((ofInodeId fs x).getLinkNum fs (fs.getDiskInodePos y).1
        (fs.getDiskInodePos y).2).runStore store' =
          .ok (Entries.linkCount (fs.entries store x) y +
            if Entries.find (fs.entries store x) oldName = some y then 1 else 0, store')) ∧
    (∀ name r store', ((ofInodeId fs x).unlink name).runStore store = .ok (r, store') →
      ∀ y, ((ofInodeId fs x).getLinkNum fs (fs.getDiskInodePos y).1
        (fs.getDiskInodePos y).2).runStore store' =
          .ok (Entries.linkCount (fs.entries store x) y -
            if Entries.find (fs.entries store x) name = some y then 1 else 0, store')) := by
  have hinv := hr.inv
  have hown := hinv.owned x hx
  -- after a step of `x`, the count is read from the new entries
  have hafter : ∀ {s' : Nat → Block}, fs.Step store x (fs.diskInode s' x) s' → ∀ y,
      ((ofInodeId fs x).getLinkNum fs (fs.getDiskInodePos y).1
        (fs.getDiskInodePos y).2).runStore s' = .ok (Entries.linkCount (fs.entries s' x) y, s') :=
    fun hstep ↦ runStore_getLinkNum_pos ((hinv.step hx hstep).owned x (by
      rw [hstep.inodes_eq]; exact hx))
  refine ⟨runStore_getLinkNum_pos hown, fun blockId blockOffset hpos ↦ ?_,
    fun oldName newName r s' h y ↦ ?_, fun name r s' h y ↦ ?_⟩
  · rw [runStore_getLinkNum hown, List.countP_eq_zero.mpr fun e _ ↦ by simpa using hpos e.2]
  · rcases link_ok hinv hx h with ⟨hl, -, rfl⟩ | ⟨inodeId, hl, -, happ⟩
    · rw [runStore_getLinkNum_pos hown, ← Entries.linkCount_link _ oldName newName, Entries.link,
        show Entries.find (fs.entries _ x) oldName = none from hl]
    · rw [hafter happ.step, ← Entries.linkCount_link _ oldName newName, Entries.link,
        show Entries.find (fs.entries _ x) oldName = some inodeId from hl]
      simp only [entries, happ.records_eq, Entries.linkCount_append]
  · rcases unlink_ok hinv hx h with ⟨hl, -, rfl⟩ | ⟨-, ⟨inodeId, hl⟩, hstep, -, hrec, -⟩
    · rw [runStore_getLinkNum_pos hown, show Entries.find (fs.entries _ x) name = none from hl,
        if_neg nofun, Nat.sub_zero]
    · rw [hafter hstep, ← Entries.linkCount_unlink, Entries.unlink,
        if_pos (Entries.mem_names_of_find (fs.entries store x) hl), entries, hrec]
      rfl

/-- In the root of the formatted device after `create` of `"a"`, `get_link_num` at the new
inode's position counts its one entry. -/
theorem getLinkNum_counts_entries_root :
    ∃ store y, (layout 8192 1).Reachable store ∧ 0 ∈ (layout 8192 1).inodes store ∧
      ((ofInodeId (layout 8192 1) 0).getLinkNum (layout 8192 1)
        ((layout 8192 1).getDiskInodePos y).1 ((layout 8192 1).getDiskInodePos y).2).runStore store =
        .ok (1, store) := by
  obtain ⟨-, s, y, -, -, -, hr, -, hinodes, -, hrec⟩ := reachable_root_create (fun _ ↦ zeroBlock) [97]
  have h0 : 0 ∈ (layout 8192 1).inodes s := by rw [hinodes]; exact Finset.mem_insert_self 0 _
  refine ⟨s, y, hr, h0, ?_⟩
  rw [(getLinkNum_counts_entries hr h0).1 y, entries, hrec]
  simp [Entries.linkCount]

/-! ### Two properties the code does not keep -/

/-- `link` appends its new name without looking it up: on a directory of a reachable state that
has both names, a `link` with room returns and leaves two entries with the new name. -/
theorem link_duplicates_name (hr : fs.Reachable store) (hx : x ∈ fs.inodes store)
    (hdir : (fs.diskInode store x).isDir) {oldName newName : List UInt8}
    (hold : oldName ∈ Entries.names (fs.entries store x))
    (hnew : newName ∈ Entries.names (fs.entries store x)) (hname : NameFits newName)
    (hroom : fs.RecordRoom store x) :
    ∃ r store', ((ofInodeId fs x).link fs oldName newName).runStore store = .ok (r, store') ∧
      fs.Reachable store' ∧ ¬ (Entries.names (fs.entries store' x)).Nodup := by
  obtain ⟨s', hrun, hent, -⟩ := link_refines hr.inv hx hdir oldName hname hroom
  obtain ⟨inodeId, hfind⟩ := Entries.find_of_mem_names _ hold
  refine ⟨_, s', hrun, .step (.link oldName newName) hr hx (BlockIo.runStore_discard_of_ok hrun),
    fun hnd ↦ ?_⟩
  rw [hent, Entries.link, hfind, Entries.names, List.map_append] at hnd
  exact List.disjoint_of_nodup_append hnd hnew (List.mem_singleton_self newName)

/-- The root of the formatted device after `create` of `"a"`: it has room for `link("a", "a")`. -/
theorem link_duplicates_name_root :
    ∃ store, (layout 8192 1).Reachable store ∧ 0 ∈ (layout 8192 1).inodes store ∧
      ((layout 8192 1).diskInode store 0).isDir ∧
      [97] ∈ Entries.names ((layout 8192 1).entries store 0) ∧ NameFits [97] ∧
      (layout 8192 1).RecordRoom store 0 ∧
      ∃ r store', ((ofInodeId (layout 8192 1) 0).link (layout 8192 1) [97] [97]).runStore store =
        .ok (r, store') ∧ (layout 8192 1).Reachable store' ∧
        ¬ (Entries.names ((layout 8192 1).entries store' 0)).Nodup := by
  obtain ⟨-, s, y, -, -, -, hr, -, hinodes, hdir, hrec⟩ := reachable_root_create (fun _ ↦ zeroBlock) [97]
  have h0 : 0 ∈ (layout 8192 1).inodes s := by rw [hinodes]; exact Finset.mem_insert_self 0 _
  have hent : (layout 8192 1).entries s 0 = [([97], y)] := by
    rw [entries, hrec, DirEntry.nameOf_new (by decide) (by decide)]
  have hmem : [97] ∈ Entries.names ((layout 8192 1).entries s 0) := by
    rw [hent]; exact List.mem_singleton_self _
  -- the root holds one record
  have hroom : (layout 8192 1).RecordRoom s 0 := recordRoom_of_one_record (by
    rw [← DiskInode.length_records, hrec, List.length_singleton])
  exact ⟨s, hr, h0, hdir, hmem, by decide, hroom,
    link_duplicates_name hr h0 hdir hmem hmem (by decide) hroom⟩

/-- `unlink` shrinks the directory by one record and gives nothing back: when the size falls
below a block boundary, a block of the directory stays marked in the data bitmap with no inode
addressing it, in a reachable state. -/
theorem unlink_leaks_block (hr : fs.Reachable store) (hx : x ∈ fs.inodes store)
    (hdir : (fs.diskInode store x).isDir) {name : List UInt8}
    (hname : name ∈ Entries.names (fs.entries store x))
    (hcross : DiskInode.totalBlocks ((fs.diskInode store x).size - direntSz) <
      DiskInode.totalBlocks (fs.diskInode store x).size) :
    ∃ store', ((ofInodeId fs x).unlink name).runStore store = .ok (0, store') ∧
      fs.Reachable store' ∧ ∃ b ∈ fs.dataInUse store', ∀ y ∈ fs.inodes store',
        b ∉ (fs.diskInode store' y).addressed store' := by
  have hinv := hr.inv
  have hown := hinv.owned x hx
  obtain ⟨inodeId, hfound⟩ := Entries.find_of_mem_names _ hname
  obtain ⟨s', hrun, hstep, hrec, -, huse⟩ := runStore_unlink hinv hx hdir name hfound
  have hsize : (fs.diskInode s' x).size = (fs.diskInode store x).size - direntSz := by rw [hrec]
  -- the shrunk record addresses fewer blocks than the record had
  obtain ⟨b, hb, hb'⟩ : ∃ b ∈ (fs.diskInode store x).addressed store,
      b ∉ (fs.diskInode s' x).addressed s' := by
    by_contra hall
    push_neg at hall
    have hle := Finset.card_le_card fun b hb ↦
      List.mem_toFinset.mpr (hall b (List.mem_toFinset.mp hb))
    rw [List.toFinset_card_of_nodup hown.nodup, DiskInode.length_addressed] at hle
    have hlen := List.toFinset_card_le ((fs.diskInode s' x).addressed s')
    rw [DiskInode.length_addressed, hsize] at hlen
    omega
  refine ⟨s', hrun, .step (.unlink name) hr hx (BlockIo.runStore_discard_of_ok hrun), b,
    by rw [huse]; exact hown.inUse b hb, fun y hy hby ↦ ?_⟩
  rw [hstep.inodes_eq] at hy
  by_cases hyx : y = x
  · subst hyx
    exact hb' hby
  · obtain ⟨hrecy, haddr, -⟩ := hinv.step_view hx hstep hy hyx
    rw [hrecy, haddr] at hby
    exact hinv.disjoint x hx y hy (Ne.symm hyx) b hb hby

/-- The root of the formatted device after `write_at(0, [0; 544])`: seventeen records with the empty
name, over two blocks; `unlink("")` brings it to one block. -/
theorem unlink_leaks_block_root :
    ∃ store, (layout 8192 1).Reachable store ∧ 0 ∈ (layout 8192 1).inodes store ∧
      ((layout 8192 1).diskInode store 0).isDir ∧
      [] ∈ Entries.names ((layout 8192 1).entries store 0) ∧
      DiskInode.totalBlocks (((layout 8192 1).diskInode store 0).size - direntSz) <
        DiskInode.totalBlocks ((layout 8192 1).diskInode store 0).size ∧
      ∃ store', ((ofInodeId (layout 8192 1) 0).unlink []).runStore store = .ok (0, store') ∧
        (layout 8192 1).Reachable store' ∧ ∃ b ∈ (layout 8192 1).dataInUse store',
          ∀ y ∈ (layout 8192 1).inodes store', b ∉ ((layout 8192 1).diskInode store' y).addressed store' := by
  obtain ⟨s₀, hr₀, hinodes, hdir, hsize₀, hdata⟩ := reachable_format (fun _ ↦ zeroBlock)
  have h0 : 0 ∈ (layout 8192 1).inodes s₀ := by rw [hinodes]; exact Finset.mem_singleton_self 0
  obtain ⟨s, hrun, hstep, hsize, hbytes, -⟩ := Inode.runStore_writeAt hr₀.inv h0
    (List.replicate 544 0) (show 0 < maxDataBlocks * blockSz by decide)
    (by rw [List.length_replicate, maxDataBlocks_eq]; decide)
    (by rw [Finset.image_eq_empty.mp hdata, Finset.card_empty, DiskInode.blocksNumNeeded, hsize₀,
          List.length_replicate]
        decide)
  rw [List.length_replicate, Nat.zero_add] at hsize hbytes
  rw [hsize₀, Nat.zero_max] at hsize
  have hr : (layout 8192 1).Reachable s :=
    .step (.writeAt 0 (List.replicate 544 0)) hr₀ h0 (BlockIo.runStore_discard_of_ok hrun)
  have hx : 0 ∈ (layout 8192 1).inodes s := by rw [hstep.inodes_eq]; exact h0
  -- the first record holds zeros: the empty name
  have hfirst : ((layout 8192 1).diskInode s 0).recordBytes s 0 = List.replicate 32 0 := by
    have happ := ((layout 8192 1).diskInode s 0).bytesIn_append s (Nat.zero_le 32)
      (show 32 ≤ 544 by decide)
    rw [hbytes] at happ
    have := congrArg (List.take 32) happ
    rw [List.take_left' (by rw [DiskInode.length_bytesIn])] at this
    rw [DiskInode.recordBytes, show direntSz * 0 + direntSz = 32 from rfl, Nat.mul_zero, this,
      List.take_replicate]
    rfl
  have hmem : [] ∈ Entries.names ((layout 8192 1).entries s 0) := by
    refine List.mem_map.mpr ⟨((layout 8192 1).diskInode s 0).record s 0,
      List.mem_map.mpr ⟨0, List.mem_range.mpr ?_, rfl⟩, ?_⟩
    · rw [hsize]; decide
    · rw [DiskInode.record, DiskInode.entry, hfirst]
      rfl
  have hcross : DiskInode.totalBlocks (((layout 8192 1).diskInode s 0).size - direntSz) <
      DiskInode.totalBlocks ((layout 8192 1).diskInode s 0).size := by
    rw [hsize]; decide
  have hdir' : ((layout 8192 1).diskInode s 0).isDir := by
    rw [DiskInode.isDir, hstep.type_eq]; exact hdir
  exact ⟨s, hr, hx, hdir', hmem, hcross, unlink_leaks_block hr hx hdir' hmem hcross⟩

end EasyFileSystem

end Rcore.EasyFs
