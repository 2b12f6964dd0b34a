import Rcore.EasyFs.Vfs

/-!
# Which operations leave the cache clean

`Inode::create`, `write_at` and `clear` end with `block_cache_sync_all`: when they return,
every resident entry of the cache is clean, so the device holds every block as the
filesystem sees it (`Inv.device_eq_logical`). `Inode::link` and `Inode::unlink` end with the
`modify_disk_inode` that rewrites the directory's inode and return without a sync: the entry
of the directory's inode block is resident and modified when they return.

Both facts are read off the last cache operation of each computation: a returning `modify`
leaves the entry of its block resident and modified (`runCache_modify_dirty`), and a
returning `syncAll` leaves every entry clean (`runCache_syncAll_clean`).
-/

set_option autoImplicit false
set_option relaxedAutoImplicit false

namespace Rcore.EasyFs

open CacheState

namespace BlockIo

variable {s s' : CacheState}

theorem runCache_bind_eq_ok {α β : Type} {y : BlockIo β} {k : β → BlockIo α} {a : α}
    (h : (y.bind k).runCache s = .ok (a, s')) :
    ∃ b s₁, y.runCache s = .ok (b, s₁) ∧ (k b).runCache s₁ = .ok (a, s') := by
  rw [runCache] at h
  split at h
  · exact ⟨_, _, ‹_›, h⟩
  · cases h

@[simp] theorem runCache_pure {α : Type} (a : α) (s : CacheState) :
    (BlockIo.pure a).runCache s = .ok (a, s) := by
  rw [runCache]

/-- A returning `modify` leaves the entry of its block resident and modified. -/
theorem runCache_modify_dirty {α : Type} {b offset size : Nat}
    {body : List UInt8 → BlockIo (List UInt8 × α)} {a : α} (hs : Inv s)
    (h : (BlockIo.modify b offset size body).runCache s = .ok (a, s')) :
    ∃ e ∈ s'.queue, e.1 = b ∧ ¬ Clean s' e := by
  rw [runCache] at h
  split at h
  · cases h
  rename_i p s₁ hget
  obtain ⟨hs₁, -, ⟨c, hc, hcb⟩, hext₁, -⟩ := hs.getBlockCache_spec hget
  have hp : 0 < s₁.ext p := by simp [hext₁]
  split at h
  · cases h
  split at h
  · cases h
  rename_i new a₂ s₂ hbody
  split at h
  · cases h
  rename_i s₃ hmod
  cases h
  obtain ⟨-, hs₂, hext₂, hk₂⟩ := BlockIo.runCache_simulates _ hs₁ hbody
  obtain ⟨c₂, hc₂, hcb₂⟩ := hk₂ p c hp hc
  have hs₃ := hs₂.modify hmod
  have hp₃ : 0 < s₃.ext p := by rw [ext_modify hmod, hext₂]; exact hp
  obtain ⟨c₂', c₃, hc₂', hc₃, rfl⟩ := modify_eq_ok hmod
  obtain ⟨-, rfl⟩ := BlockCache.modify_eq_ok hc₃
  obtain rfl : c₂' = c₂ := Option.some.inj (hc₂'.symm.trans hc₂)
  rw [hs₃.release_eq hp₃]
  obtain ⟨⟨eb, _⟩, he, rfl⟩ := List.mem_map.mp (hs₃.live p _ (Function.update_same _ _ _))
  obtain ⟨d, hd, hde⟩ := hs₃.entry _ he
  simp only [Function.update_same, Option.some.injEq] at hd
  subst hd
  refine ⟨_, he, by rw [← hde, ← hcb, ← hcb₂], fun hclean ↦ ?_⟩
  simpa using hclean _ (Function.update_same _ _ _)

/-- A returning `syncAll` leaves every resident entry clean. -/
theorem runCache_syncAll_clean {a : Unit} (hs : Inv s)
    (h : BlockIo.syncAll.runCache s = .ok (a, s')) : ∀ e ∈ s'.queue, Clean s' e := by
  rw [runCache] at h
  cases h
  simpa using hs.blockCacheSyncAll_spec.2

/-- A prefix that returns keeps the invariant. -/
theorem runCache_bind_inv {α β : Type} {y : BlockIo β} {k : β → BlockIo α} {a : α} (hs : Inv s)
    (h : (y.bind k).runCache s = .ok (a, s')) :
    ∃ b s₁, Inv s₁ ∧ (k b).runCache s₁ = .ok (a, s') := by
  obtain ⟨b, s₁, hy, hk⟩ := runCache_bind_eq_ok h
  exact ⟨b, s₁, (runCache_simulates _ hs hy).2.1, hk⟩

/-- A computation that ends with `block_cache_sync_all` and returns leaves every entry clean. -/
theorem runCache_syncAll_pure_clean {α : Type} {x : α} {a : α} (hs : Inv s)
    (h : (BlockIo.syncAll.bind fun _ ↦ BlockIo.pure x).runCache s = .ok (a, s')) :
    ∀ e ∈ s'.queue, Clean s' e := by
  obtain ⟨u, s₁, hsync, hpure⟩ := runCache_bind_eq_ok h
  rw [runCache_pure] at hpure
  cases hpure
  exact runCache_syncAll_clean hs hsync

/-- A computation that ends with a `modify` of block `b` and returns leaves `b` dirty. -/
theorem runCache_modify_pure_dirty {α β : Type} {b offset size : Nat}
    {body : List UInt8 → BlockIo (List UInt8 × β)} {x : α} {a : α} (hs : Inv s)
    (h : ((BlockIo.modify b offset size body).bind fun _ ↦ BlockIo.pure x).runCache s = .ok (a, s')) :
    ∃ e ∈ s'.queue, e.1 = b ∧ ¬ Clean s' e := by
  obtain ⟨u, s₁, hmod, hpure⟩ := runCache_bind_eq_ok h
  rw [runCache_pure] at hpure
  cases hpure
  exact runCache_modify_dirty hs hmod

end BlockIo

namespace Inode

open BlockIo

variable (fs : EasyFileSystem) (self : Inode) {s s' : CacheState}

theorem create_clean {name : List UInt8} {r : Option Inode} (hs : Inv s)
    (h : (self.create fs name).runCache s = .ok (r, s')) :
    r = none ∨ ∀ e ∈ s'.queue, Clean s' e := by
  simp only [create, bind_eq] at h
  obtain ⟨found, s₁, hs₁, h⟩ := runCache_bind_inv hs h
  split at h
  · rw [pure_eq, runCache_pure] at h
    exact .inl (Prod.mk.inj (Except.ok.inj h)).1.symm
  obtain ⟨_, _, hs₂, h⟩ := runCache_bind_inv hs₁ h
  obtain ⟨_, _, hs₃, h⟩ := runCache_bind_inv hs₂ h
  obtain ⟨_, _, hs₄, h⟩ := runCache_bind_inv hs₃ h
  exact .inr (runCache_syncAll_pure_clean hs₄ h)

theorem writeAt_clean {offset : Nat} {buf : List UInt8} {r : Nat} (hs : Inv s)
    (h : (self.writeAt fs offset buf).runCache s = .ok (r, s')) : ∀ e ∈ s'.queue, Clean s' e := by
  simp only [writeAt, bind_eq] at h
  obtain ⟨_, _, hs₁, h⟩ := runCache_bind_inv hs h
  exact runCache_syncAll_pure_clean hs₁ h

theorem clear_clean {r : Unit} (hs : Inv s) (h : (self.clear fs).runCache s = .ok (r, s')) :
    ∀ e ∈ s'.queue, Clean s' e := by
  simp only [clear, bind_eq] at h
  obtain ⟨_, _, hs₁, h⟩ := runCache_bind_inv hs h
  exact runCache_syncAll_clean hs₁ h

theorem link_dirty {old new : List UInt8} {r : Option Inode} (hs : Inv s)
    (h : (self.link fs old new).runCache s = .ok (r, s')) :
    r = none ∨ ∃ e ∈ s'.queue, e.1 = self.blockId ∧ ¬ Clean s' e := by
  simp only [link, bind_eq] at h
  obtain ⟨found, s₁, hs₁, h⟩ := runCache_bind_inv hs h
  cases found with
  | none =>
    rw [pure_eq, runCache_pure] at h
    exact .inl (Prod.mk.inj (Except.ok.inj h)).1.symm
  | some _ => exact .inr (runCache_modify_pure_dirty hs₁ h)

theorem unlink_dirty {name : List UInt8} {r : Int} (hs : Inv s)
    (h : (self.unlink name).runCache s = .ok (r, s')) :
    r = -1 ∨ r = 0 ∧ ∃ e ∈ s'.queue, e.1 = self.blockId ∧ ¬ Clean s' e := by
  simp only [unlink, bind_eq] at h
  obtain ⟨found, s₁, hs₁, h⟩ := runCache_bind_inv hs h
  cases found with
  | none =>
    simp only [pure_eq, runCache_pure] at h
    exact .inl (Prod.mk.inj (Except.ok.inj h)).1.symm
  | some _ =>
    obtain ⟨u, s₂, hmod, hpure⟩ := runCache_bind_eq_ok h
    rw [pure_eq, runCache_pure] at hpure
    obtain ⟨rfl, rfl⟩ := Prod.mk.inj (Except.ok.inj hpure)
    exact .inr ⟨rfl, runCache_modify_dirty hs₁ hmod⟩

end Inode

end Rcore.EasyFs
