import Rcore.EasyFs.Reachable
import Rcore.EasyFs.CachedOps
import Rcore.EasyFs.Durability
import Rcore.EasyFs.DirectoryModel

/-!
# Runs of the filesystem on the block cache

In the code every block the filesystem touches goes through `get_block_cache` and the
`BlockCacheManager`; `Reachable` runs the same calls on a plain array of blocks. A run on the cache
(`CachedReachable`) formats a device through a fresh manager, then applies the mutations of
`vfs.rs` one call at a time, each through the cache.

The two levels have the same runs (`cachedRuns_refine_runs`). Every state a run on the cache
reaches is a reachable state of the cache manager, stands for a reachable block array, and holds
no handle between calls (`CachedReachable.sound`); and every reachable block array is the array
of a state some run on the cache reaches (`Reachable.cached`). The second direction is where the
size of the cache enters: a call holds at most three handles (`Op.holdsAtMost_run`), none is held
between calls, so no call meets `Run out of BlockCache!` and the cache returns whenever the array
does. Every property of `Reachable`, the invariant `Inv`, the frame of each call and the
specifications of `clear` and `write_at`, so holds of the filesystem the code runs.

The calls that end with `block_cache_sync_all` leave the device holding a reachable state of the
filesystem: a crash right after `write_at`, `clear` or a `create` that made an inode loses
nothing, and what is left on the device satisfies the filesystem's invariant
(`synced_calls_leave_consistent_device`). `link` and `unlink` end without the sync
(`mutations_synced_on_return`): after formatting and `create("a")`, `link("a", "b")` on the root
returns a handle while the root's inode block is modified in the cache and old on the device
(`mutations_synced_on_return_link`).

Scope. The calls of a run are sequential: the handles of one call are dropped before the next
call starts, as they are for one thread of the kernel.
-/

set_option autoImplicit false
set_option relaxedAutoImplicit false

namespace Rcore.EasyFs

open BlockIo CacheState

/-- Every mutation holds at most three block-cache handles at once. -/
theorem Op.holdsAtMost_run (fs : EasyFileSystem) (self : Inode) :
    ∀ op : Op, (op.run fs self).HoldsAtMost 3
  | .create name => .bind (self.holdsAtMost_create fs name) fun _ ↦ .pure 3 _
  | .link oldName newName => .bind (self.holdsAtMost_link fs oldName newName) fun _ ↦ .pure 3 _
  | .unlink name => .bind (self.holdsAtMost_unlink name) fun _ ↦ .pure 3 _
  | .writeAt offset buf => .bind (self.holdsAtMost_writeAt fs offset buf) fun _ ↦ .pure 3 _
  | .clear => self.holdsAtMost_clear fs

namespace EasyFileSystem

open Inode

/-- The states of the block cache a run of the filesystem reaches in the code: a device formatted
through a fresh `BlockCacheManager`, then calls that return on the handles of allocated inodes,
each run through the cache. -/
inductive CachedReachable (fs : EasyFileSystem) : CacheState → Prop
  | format {totalBlocks inodeBitmapBlocks : Nat} {device : Nat → Block} {s : CacheState}
      (hwf : (layout totalBlocks inodeBitmapBlocks).WellFormed)
      (hfit : (layout totalBlocks inodeBitmapBlocks).dataAreaStartBlock ≤ totalBlocks)
      (h : (create totalBlocks inodeBitmapBlocks).runCache (init device) = .ok (fs, s)) :
      CachedReachable fs s
  | step {s s' : CacheState} {x : Nat} (op : Op) (hr : CachedReachable fs s)
      (hx : x ∈ fs.inodes s.logical)
      (h : (op.run fs (ofInodeId fs x)).runCache s = .ok ((), s')) :
      CachedReachable fs s'

variable {fs : EasyFileSystem}

/-- A run on the cache is a run of the cache manager and, on the array the cache stands for, a
run of the filesystem; it leaves no handle held. -/
theorem CachedReachable.sound {s : CacheState} (hr : fs.CachedReachable s) :
    CacheState.Reachable s ∧ fs.Reachable s.logical ∧ ∀ p, s.ext p = 0 := by
  induction hr with
  | @format _ _ device _ hwf hfit h =>
    obtain ⟨hrun, -, hext, -⟩ := runCache_simulates _ (inv_init device) h
    exact ⟨runCache_reachable _ (.init device) h, .format hwf hfit hrun,
      fun p ↦ congrFun hext p⟩
  | step op _ hx h ih =>
    obtain ⟨hrun, -, hext, -⟩ := runCache_simulates _ ih.1.inv h
    exact ⟨runCache_reachable _ ih.1 h, .step op ih.2.1 hx hrun, fun p ↦ hext ▸ ih.2.2 p⟩

/-- Every reachable block array is the array of a state a run on the cache reaches. -/
theorem Reachable.cached {store : Nat → Block} (hr : fs.Reachable store) :
    ∃ s, fs.CachedReachable s ∧ s.logical = store := by
  induction hr with
  | @format totalBlocks inodeBitmapBlocks device _ hwf hfit h =>
    obtain ⟨s, hs, rfl⟩ := runCache_ok_of_runStore_ok
      (holdsAtMost_create totalBlocks inodeBitmapBlocks) (inv_init device)
      (by rw [held_init]; decide) h
    exact ⟨s, .format hwf hfit hs, rfl⟩
  | step op _ hx h ih =>
    obtain ⟨s, hc, rfl⟩ := ih
    obtain ⟨hr, -, hext⟩ := hc.sound
    obtain ⟨s', hs', rfl⟩ := runCache_ok_of_runStore_ok (Op.holdsAtMost_run fs _ op) hr.inv
      (by rw [hr.inv.held_eq_empty hext]; decide) h
    exact ⟨s', .step op hc hx hs', rfl⟩

/-- The filesystem on the block cache has the runs of the filesystem on a plain block array: every
state a run on the cache reaches is a reachable state of the cache manager whose array is a
reachable state of the filesystem, with no handle held, and every reachable state of the
filesystem is the array of a state a run on the cache reaches. -/
theorem cachedRuns_refine_runs :
    (∀ s, fs.CachedReachable s →
      CacheState.Reachable s ∧ fs.Reachable s.logical ∧ s.held = ∅) ∧
      ∀ store, fs.Reachable store → ∃ s, fs.CachedReachable s ∧ s.logical = store :=
  ⟨fun _ hr ↦
    have ⟨hc, hfs, hext⟩ := hr.sound
    ⟨hc, hfs, hc.inv.held_eq_empty hext⟩,
    fun _ hr ↦ hr.cached⟩

theorem cachedRuns_refine_runs_format :
    ∃ s, (layout 8192 1).CachedReachable s ∧ CacheState.Reachable s ∧
      (layout 8192 1).Reachable s.logical ∧ s.held = ∅ := by
  obtain ⟨store, hr, -⟩ := reachable_format zeroDevice
  obtain ⟨s, hc, -⟩ := cachedRuns_refine_runs.2 store hr
  exact ⟨s, hc, cachedRuns_refine_runs.1 s hc⟩

/-- A crash right after a call that ends with `block_cache_sync_all` loses nothing: after
`write_at`, `clear`, or a `create` that returns a handle, in a run on the cache, the device holds
the array the filesystem sees, and that array is a reachable state of the filesystem. -/
theorem synced_calls_leave_consistent_device {s : CacheState} (hr : fs.CachedReachable s)
    {x : Nat} (hx : x ∈ fs.inodes s.logical) :
    (∀ offset buf n s', ((ofInodeId fs x).writeAt fs offset buf).runCache s = .ok (n, s') →
      s'.device = s'.logical ∧ fs.Reachable s'.device) ∧
    (∀ s', ((ofInodeId fs x).clear fs).runCache s = .ok ((), s') →
      s'.device = s'.logical ∧ fs.Reachable s'.device) ∧
    (∀ name handle s', ((ofInodeId fs x).create fs name).runCache s = .ok (some handle, s') →
      s'.device = s'.logical ∧ fs.Reachable s'.device) := by
  obtain ⟨hc, hfs, -⟩ := hr.sound
  have hs := hc.inv
  -- a clean cache after a returning call is on the device, and the call is a step of the run
  have durable {α : Type} {y : BlockIo α} {a : α} {s' : CacheState} (op : Op)
      (h : y.runCache s = .ok (a, s')) (hclean : ∀ e ∈ s'.queue, Clean s' e)
      (hop : (op.run fs (ofInodeId fs x)).runStore s.logical = .ok ((), s'.logical)) :
      s'.device = s'.logical ∧ fs.Reachable s'.device := by
    have hdev := (runCache_simulates _ hs h).2.1.device_eq_logical hclean
    exact ⟨hdev, hdev ▸ .step op hfs hx hop⟩
  refine ⟨fun offset buf n s' h ↦ ?_, fun s' h ↦ ?_, fun name handle s' h ↦ ?_⟩
  · exact durable (.writeAt offset buf) h (Inode.writeAt_clean fs _ hs h)
      (runStore_discard_of_ok (runCache_simulates _ hs h).1)
  · exact durable .clear h (Inode.clear_clean fs _ hs h) (runCache_simulates _ hs h).1
  · exact durable (.create name) h ((Inode.create_clean fs _ hs h).resolve_left nofun)
      (runStore_discard_of_ok (runCache_simulates _ hs h).1)

theorem synced_calls_leave_consistent_device_format :
    ∃ s, (layout 8192 1).CachedReachable s ∧ 0 ∈ (layout 8192 1).inodes s.logical ∧
      ∀ s', ((ofInodeId (layout 8192 1) 0).clear (layout 8192 1)).runCache s = .ok ((), s') →
        s'.device = s'.logical ∧ (layout 8192 1).Reachable s'.device := by
  obtain ⟨store, hr, hinodes, -⟩ := reachable_format zeroDevice
  obtain ⟨s, hc, rfl⟩ := hr.cached
  have h0 : 0 ∈ (layout 8192 1).inodes s.logical := by
    rw [hinodes]; exact Finset.mem_singleton_self 0
  exact ⟨s, hc, h0, (synced_calls_leave_consistent_device hc h0).2.1⟩

end EasyFileSystem

namespace Inode

open EasyFileSystem

/-- When they return, `create` (having made an inode), `write_at` and `clear` leave every
resident entry of the cache clean and the device equal to the array the filesystem sees;
`link` returning a handle and `unlink` returning `0` leave the entry of the directory's inode
block resident and modified, so the device still holds the directory's old inode. -/
theorem mutations_synced_on_return (fs : EasyFileSystem) (self : Inode) {s : CacheState}
    (hs : Inv s) :
    (∀ name, match (self.create fs name).runCache s with
      | .ok (r, s') => r = none ∨ s'.device = s'.logical ∧ ∀ e ∈ s'.queue, Clean s' e
      | .error _ => True) ∧
    (∀ offset buf, match (self.writeAt fs offset buf).runCache s with
      | .ok (_, s') => s'.device = s'.logical ∧ ∀ e ∈ s'.queue, Clean s' e
      | .error _ => True) ∧
    (match (self.clear fs).runCache s with
      | .ok (_, s') => s'.device = s'.logical ∧ ∀ e ∈ s'.queue, Clean s' e
      | .error _ => True) ∧
    (∀ old new, match (self.link fs old new).runCache s with
      | .ok (r, s') => r = none ∨ ∃ e ∈ s'.queue, e.1 = self.blockId ∧ ¬ Clean s' e
      | .error _ => True) ∧
    (∀ name, match (self.unlink name).runCache s with
      | .ok (r, s') => r = -1 ∨ r = 0 ∧ ∃ e ∈ s'.queue, e.1 = self.blockId ∧ ¬ Clean s' e
      | .error _ => True) := by
  have durable : ∀ {α : Type} {x : BlockIo α} {a : α} {s' : CacheState},
      x.runCache s = .ok (a, s') → (∀ e ∈ s'.queue, Clean s' e) →
      s'.device = s'.logical ∧ ∀ e ∈ s'.queue, Clean s' e :=
    fun h hc ↦ ⟨(runCache_simulates _ hs h).2.1.device_eq_logical hc, hc⟩
  refine ⟨fun name ↦ ?_, fun offset buf ↦ ?_, ?_, fun old new ↦ ?_, fun name ↦ ?_⟩ <;> split <;>
    try trivial
  · rename_i h
    exact (create_clean fs self hs h).imp_right (durable h)
  · rename_i h
    exact durable h (writeAt_clean fs self hs h)
  · rename_i h
    exact durable h (clear_clean fs self hs h)
  · exact link_dirty fs self hs ‹_›
  · exact unlink_dirty self hs ‹_›

/-- In a run on the cache that formats the device and creates `"a"` in the root, `link("a", "b")`
on the root returns a handle and leaves the entry of the root's inode block modified. -/
theorem mutations_synced_on_return_link :
    ∃ s handle s', (layout 8192 1).CachedReachable s ∧ Inv s ∧
      (∃ y, ((layout 8192 1).diskInode s.logical 0).records s.logical = [([97], y)]) ∧
      ((ofInodeId (layout 8192 1) 0).link (layout 8192 1) [97] [98]).runCache s =
        .ok (some handle, s') ∧
      ∃ e ∈ s'.queue, e.1 = (ofInodeId (layout 8192 1) 0).blockId ∧ ¬ Clean s' e := by
  obtain ⟨-, store, y, -, -, -, hr, -, hinodes, hdir, hrec⟩ :=
    reachable_root_create (fun _ ↦ zeroBlock) [97]
  rw [DirEntry.nameOf_new (by decide) (by decide)] at hrec
  obtain ⟨s, hc, rfl⟩ := hr.cached
  obtain ⟨hcr, -, hext⟩ := hc.sound
  have h0 : 0 ∈ (layout 8192 1).inodes s.logical := by
    rw [hinodes]; exact Finset.mem_insert_self 0 _
  -- `link` returns on the array, so it returns on the cache
  have hroom : (layout 8192 1).RecordRoom s.logical 0 := recordRoom_of_one_record (by
    rw [← DiskInode.length_records, hrec, List.length_singleton])
  obtain ⟨store', hlink, -⟩ := runStore_link hr.inv h0 hdir [97] [98] (by rw [hrec]; rfl)
    hroom.1 hroom.2
  obtain ⟨s', hcache, -⟩ := runCache_ok_of_runStore_ok
    ((ofInodeId (layout 8192 1) 0).holdsAtMost_link (layout 8192 1) [97] [98]) hcr.inv
    (by rw [hcr.inv.held_eq_empty hext]; decide) hlink
  have hdirty := (mutations_synced_on_return (layout 8192 1) (ofInodeId (layout 8192 1) 0)
    hcr.inv).2.2.2.1 [97] [98]
  rw [hcache] at hdirty
  exact ⟨s, _, s', hc, hcr.inv, ⟨y, hrec⟩, hcache, hdirty.resolve_left nofun⟩

end Inode

end Rcore.EasyFs
