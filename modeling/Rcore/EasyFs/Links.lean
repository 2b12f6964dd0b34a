import Rcore.EasyFs.Accounting

/-!
# Directory records name allocated inodes

A record of a directory holds an inode id, and `find` turns it into a handle with `Inode::new` at
the position of that id, without looking the id up in the inode bitmap. No call lets such an id
dangle (`RecordsAllocated`): `create` appends a record for the inode it has just allocated, `link`
one for an id the directory already records, `unlink` keeps a part of the records, `clear` empties
the directory, an inode a call allocates has no records yet, and no call frees an inode. The one
exception is `write_at` on a directory, which writes raw bytes over its records and can name any
id. So along every run whose `write_at` calls go to files (`WritesFiles`), every record of every
directory names an allocated inode, and every handle `find` returns is the handle of an allocated
inode (`directory_records_allocated`).

The calls keep the invariant in two parts: a lemma over every effect a call can have
(`OpEffect.recordsAllocated`) takes care of every other directory and of the inode `create`
allocates, and the records of the inode the call runs on are followed per call
(`Inv.recordsAllocated_run`).
-/

set_option autoImplicit false
set_option relaxedAutoImplicit false

namespace Rcore.EasyFs

/-- `swapRemove` keeps only elements of the list. -/
theorem mem_of_mem_swapRemove {α : Type} {l : List α} {i : Nat} {a : α}
    (h : a ∈ swapRemove l i) : a ∈ l := by
  unfold swapRemove at h
  split at h
  · cases h
  · rcases List.mem_or_eq_of_mem_set h with h | rfl
    · exact List.dropLast_subset _ h
    · exact List.mem_of_getLast?_eq_some ‹_›

theorem DiskInode.records_of_size_eq_zero {d : DiskInode} (h : d.size = 0) (store : Nat → Block) :
    d.records store = [] := by
  rw [DiskInode.records, h, Nat.zero_div, List.range_zero, List.map_nil]

namespace EasyFileSystem

open Inode

variable (fs : EasyFileSystem)

/-- Every record of every allocated directory names an allocated inode. -/
def RecordsAllocated (store : Nat → Block) : Prop :=
  ∀ z ∈ fs.inodes store, (fs.diskInode store z).isDir →
    ∀ r ∈ (fs.diskInode store z).records store, r.2 ∈ fs.inodes store

/-- A call that is a `write_at` only on a file. -/
def WritesFiles (store : Nat → Block) (x : Nat) (op : Op) : Prop :=
  ∀ offset buf, op = .writeAt offset buf → ¬ (fs.diskInode store x).isDir

variable {fs} {store store' : Nat → Block} {x : Nat}

namespace OpEffect

variable (hx : x ∈ fs.inodes store) (he : fs.OpEffect store x store')
include hx he

/-- An inode a call allocates has no records. -/
theorem records_of_not_mem {z : Nat} (hz : z ∈ fs.inodes store') (hz₀ : z ∉ fs.inodes store) :
    (fs.diskInode store' z).records store' = [] := by
  cases he with
  | keep h => subst h; exact absurd hz hz₀
  | step h => rw [h.inodes_eq] at hz; exact absurd hz hz₀
  | @newInode _ s₁ hn hs =>
    rw [hs.inodes_eq, hn.inodes_eq, Finset.mem_insert] at hz
    obtain rfl := hz.resolve_right hz₀
    have hz₁ : z ∈ fs.inodes s₁ := by rw [hn.inodes_eq]; exact Finset.mem_insert_self _ _
    rw [hs.records z hz₁ fun h ↦ hz₀ (h ▸ hx)]
    exact DiskInode.records_of_size_eq_zero hn.size_eq _

theorem isDir_eq (hinv : fs.Inv store) {y : Nat} (hy : y ∈ fs.inodes store) :
    (fs.diskInode store' y).isDir = (fs.diskInode store y).isDir := by
  rw [DiskInode.isDir, DiskInode.isDir, he.type_eq hinv hx hy]

/-- A call keeps every record of every directory pointing at an allocated inode once the records
of its own inode do: every other directory reads as it did, and an inode the call allocates has
no records. -/
theorem recordsAllocated (hinv : fs.Inv store) (hall : fs.RecordsAllocated store)
    (hself : (fs.diskInode store' x).isDir →
      ∀ r ∈ (fs.diskInode store' x).records store', r.2 ∈ fs.inodes store') :
    fs.RecordsAllocated store' := by
  intro z hz hdir r hr
  by_cases hzx : z = x
  · subst hzx
    exact hself hdir r hr
  by_cases hz₀ : z ∈ fs.inodes store
  · obtain ⟨hrec, -, hbytes⟩ := he.view hinv hx hz₀ hzx
    rw [hrec] at hdir hr
    rw [DiskInode.records_congr hbytes] at hr
    exact he.inodes_subset (hall z hz₀ hdir r hr)
  · rw [he.records_of_not_mem hx hz hz₀] at hr
    cases hr

end OpEffect

/-- Every call that returns on an allocated inode, a `write_at` only on a file, keeps every record
of every directory pointing at an allocated inode. -/
theorem Inv.recordsAllocated_run (hinv : fs.Inv store) (hx : x ∈ fs.inodes store) (op : Op)
    (hop : fs.WritesFiles store x op)
    (h : (op.run fs (ofInodeId fs x)).runStore store = .ok ((), store'))
    (hall : fs.RecordsAllocated store) : fs.RecordsAllocated store' := by
  have he := hinv.opEffect hx op h
  -- the records `x` had, when it is a directory after the call
  have hold (hdir : (fs.diskInode store' x).isDir) :
      ∀ r ∈ (fs.diskInode store x).records store, r.2 ∈ fs.inodes store' := fun r hr ↦
    he.inodes_subset (hall x hx ((he.isDir_eq hx hinv hx).symm.trans hdir) r hr)
  refine he.recordsAllocated hx hinv hall fun hdir r hr ↦ ?_
  cases op with
  | create name =>
    obtain ⟨_, hrun⟩ := BlockIo.runStore_discard_eq_ok h
    rcases Inode.create_ok hinv hx hrun with ⟨-, rfl⟩ | ⟨y, s₁, -, -, hn, -, happ⟩
    · exact hold hdir r hr
    have hxy : x ≠ y := fun h ↦ hn.fresh (h ▸ hx)
    rw [happ.records_eq, hn.records x hxy,
      DiskInode.records_congr (hn.view hinv.wf (hinv.owned x hx)).2, List.mem_append,
      List.mem_singleton] at hr
    rcases hr with hr | rfl
    · exact hold hdir r hr
    · rw [happ.step.inodes_eq, hn.inodes_eq]
      exact Finset.mem_insert_self y _
  | link oldName newName =>
    obtain ⟨_, hrun⟩ := BlockIo.runStore_discard_eq_ok h
    rcases Inode.link_ok hinv hx hrun with ⟨-, -, rfl⟩ | ⟨i, hl, -, happ⟩
    · exact hold hdir r hr
    rw [happ.records_eq, List.mem_append, List.mem_singleton] at hr
    rcases hr with hr | rfl
    · exact hold hdir r hr
    · exact hold hdir (oldName, i) (mem_of_lookup_eq_some hl)
  | unlink name =>
    obtain ⟨_, hrun⟩ := BlockIo.runStore_discard_eq_ok h
    rcases Inode.unlink_ok hinv hx hrun with ⟨-, -, rfl⟩ | ⟨-, -, -, -, hrec, -⟩
    · exact hold hdir r hr
    · rw [hrec] at hr
      exact hold hdir r (mem_of_mem_swapRemove hr)
  | writeAt offset buf =>
    exact absurd ((he.isDir_eq hx hinv hx).symm.trans hdir) (hop offset buf rfl)
  | clear =>
    obtain ⟨s', hrun, -, hsize, -⟩ := Inode.runStore_clear hinv hx
    obtain ⟨-, rfl⟩ := Prod.mk.inj (Except.ok.inj (hrun.symm.trans h))
    rw [DiskInode.records_of_size_eq_zero hsize] at hr
    cases hr

/-- A run whose `write_at` calls go to files is a run, and keeps every record of every directory
pointing at an allocated inode. -/
theorem ReachableUnder.recordsAllocated (hr : fs.ReachableUnder fs.WritesFiles store) :
    fs.Reachable store ∧ fs.RecordsAllocated store := by
  induction hr with
  | format hwf hfit h =>
    obtain ⟨rfl, -, hinodes, -, hsize, -⟩ := create_ok h hwf hfit
    refine ⟨.format hwf hfit h, fun z hz _ r hr ↦ ?_⟩
    rw [hinodes, Finset.mem_singleton] at hz
    subst hz
    rw [DiskInode.records_of_size_eq_zero hsize] at hr
    cases hr
  | step op hop _ hx h ih =>
    exact ⟨.step op ih.1 hx h, ih.1.inv.recordsAllocated_run hx op hop h ih.2⟩

/-- Along every run whose `write_at` calls go to files, every record of every directory names an
allocated inode, and every handle `find` returns on a directory is the handle of an allocated
inode. -/
theorem directory_records_allocated (hr : fs.ReachableUnder fs.WritesFiles store) :
    fs.Reachable store ∧ fs.RecordsAllocated store ∧
      ∀ z ∈ fs.inodes store, (fs.diskInode store z).isDir → ∀ name handle store'',
        ((ofInodeId fs z).find fs name).runStore store = .ok (some handle, store'') →
          ∃ y ∈ fs.inodes store, handle = ofInodeId fs y := by
  have hrun := hr.recordsAllocated
  refine ⟨hrun.1, hrun.2, fun z hz hdir name handle store'' h ↦ ?_⟩
  rw [runStore_find (hrun.1.inv.owned z hz) hdir] at h
  obtain ⟨y, hl, rfl⟩ := Option.map_eq_some'.mp (Prod.mk.inj (Except.ok.inj h)).1
  exact ⟨y, hrun.2 z hz hdir _ (mem_of_lookup_eq_some hl), rfl⟩

theorem directory_records_allocated_format :
    ∃ store, (layout 8192 1).ReachableUnder (layout 8192 1).WritesFiles store ∧
      (layout 8192 1).Reachable store ∧ (layout 8192 1).RecordsAllocated store := by
  obtain ⟨store, hrun, -⟩ :=
    runStore_create (fun _ ↦ zeroBlock) wellFormed_layout_8192 (by decide) (by decide)
  have hr : (layout 8192 1).ReachableUnder (layout 8192 1).WritesFiles store :=
    .format wellFormed_layout_8192 (by decide) hrun
  obtain ⟨hreach, hall, -⟩ := directory_records_allocated hr
  exact ⟨store, hr, hreach, hall⟩

end EasyFileSystem

end Rcore.EasyFs
