import Rcore.EasyFs.BlockCacheRefinement

/-!
# Computations over the block cache

The bitmap and the inode layer reach blocks only through
`get_block_cache(id, dev).lock().read(offset, f)` and `.modify(offset, f)`, and call
`block_cache_sync_all`. `BlockIo` is that interface as a free monad. The closure of a `read` or
a `modify` is a computation of its own: `Inode::find` scans a directory from inside the
`read` of its disk inode, and `Inode::create` grows the directory from inside the `modify`.
The handle is held while the closure runs and dropped when it returns.

`BlockIo.runCache` is the code's semantics on a `CacheState`: a `get_block_cache`, the bound
check of `get_ref`/`get_mut`, the closure with the handle pinned, the closure's image written
back through the handle, and the drop of the handle. `BlockIo.runStore` runs the same
computation on a plain array of blocks. `runCache_simulates` is the refinement of the whole
computation: from a state with the invariant, a returning run on the cache returns the same
value as the run on its `logical` array, ends in the `logical` array that run ends in, keeps
the invariant, restores every pin and keeps every pinned allocation on its block.

Scope. The closure's writes to its `&mut T` land in the cache when the closure returns; in
the code they land as they happen, but the entry's lock is held meanwhile, so nothing can
observe the difference. A closure that touched its own block again would deadlock on that lock;
none of the modelled code does.
-/

set_option autoImplicit false
set_option relaxedAutoImplicit false

namespace Rcore.EasyFs

/-- A computation against the block cache. -/
inductive BlockIo : Type → Type 1
  | pure {α : Type} (a : α) : BlockIo α
  | bind {α β : Type} (x : BlockIo β) (k : β → BlockIo α) : BlockIo α
  /-- `get_block_cache(blockId).lock().read(offset, body)` for a `T` of `size` bytes. -/
  | read {α : Type} (blockId offset size : Nat) (body : List UInt8 → BlockIo α) : BlockIo α
  /-- `get_block_cache(blockId).lock().modify(offset, body)`: the body returns the new image of
  the `T` with its result. -/
  | modify {α : Type} (blockId offset size : Nat) (body : List UInt8 → BlockIo (List UInt8 × α)) :
      BlockIo α
  /-- `block_cache_sync_all()`. -/
  | syncAll : BlockIo Unit
  /-- A panic with its message. -/
  | panic {α : Type} (msg : String) : BlockIo α

namespace BlockIo

instance : Monad BlockIo where
  pure := .pure
  bind := .bind

/-- The computation on a plain array of blocks. -/
def runStore {α : Type} (x : BlockIo α) (store : Nat → Block) :
    Except String (α × (Nat → Block)) :=
  match x with
  | .pure a => .ok (a, store)
  | .bind y k =>
    match y.runStore store with
    | .ok (b, store') => (k b).runStore store'
    | .error e => .error e
  | .read b offset size body =>
    if offset + size ≤ blockSz then (body ((store b).slice offset size)).runStore store
    else .error BlockCache.typeSizeMsg
  | .modify b offset size body =>
    if offset + size ≤ blockSz then
      match (body ((store b).slice offset size)).runStore store with
      | .ok ((bytes, a), store') =>
        .ok (a, Function.update store' b ((store' b).write offset size bytes))
      | .error e => .error e
    else .error BlockCache.typeSizeMsg
  | .syncAll => .ok ((), store)
  | .panic msg => .error msg
termination_by structural x

/-- The computation on the block cache, as the code runs it. -/
def runCache {α : Type} (x : BlockIo α) (s : CacheState) : Except String (α × CacheState) :=
  match x with
  | .pure a => .ok (a, s)
  | .bind y k =>
    match y.runCache s with
    | .ok (b, s') => (k b).runCache s'
    | .error e => .error e
  | .read b offset size body =>
    match CacheState.getBlockCache b s with
    | .error e => .error e
    | .ok (p, s₁) =>
      match s₁.read p offset size with
      | .error e => .error e
      | .ok bytes =>
        match (body bytes).runCache s₁ with
        | .error e => .error e
        | .ok (a, s₂) => .ok (a, s₂.release p)
  | .modify b offset size body =>
    match CacheState.getBlockCache b s with
    | .error e => .error e
    | .ok (p, s₁) =>
      match s₁.read p offset size with
      | .error e => .error e
      | .ok bytes =>
        match (body bytes).runCache s₁ with
        | .error e => .error e
        | .ok ((new, a), s₂) =>
          match s₂.modify p offset size (fun _ ↦ new) with
          | .error e => .error e
          | .ok s₃ => .ok (a, s₃.release p)
  | .syncAll => .ok ((), s.blockCacheSyncAll)
  | .panic msg => .error msg
termination_by structural x

@[simp] theorem pure_eq {α : Type} (a : α) : (Pure.pure a : BlockIo α) = .pure a := rfl

@[simp] theorem bind_eq {α β : Type} (x : BlockIo β) (k : β → BlockIo α) :
    (x >>= k) = .bind x k := rfl

@[simp] theorem runStore_pure {α : Type} (a : α) (store : Nat → Block) :
    (BlockIo.pure a).runStore store = .ok (a, store) := by
  simp [runStore]

theorem runStore_bind {α β : Type} (y : BlockIo β) (k : β → BlockIo α) (store : Nat → Block) :
    (y.bind k).runStore store = match y.runStore store with
      | .ok (b, store') => (k b).runStore store'
      | .error e => .error e := by
  rw [runStore]

/-- A sequenced computation that returns ran both halves. -/
theorem runStore_bind_eq_ok {α β : Type} {y : BlockIo β} {k : β → BlockIo α}
    {store store' : Nat → Block} {a : α} (h : (y.bind k).runStore store = .ok (a, store')) :
    ∃ b store₁, y.runStore store = .ok (b, store₁) ∧ (k b).runStore store₁ = .ok (a, store') := by
  rw [runStore_bind] at h
  split at h
  · exact ⟨_, _, ‹_›, h⟩
  · cases h

theorem runStore_bind_of_ok {α β : Type} {y : BlockIo β} (k : β → BlockIo α)
    {store store₁ : Nat → Block} {b : β} (h : y.runStore store = .ok (b, store₁)) :
    (y.bind k).runStore store = (k b).runStore store₁ := by
  rw [runStore_bind, h]

theorem runStore_read {α : Type} (b offset size : Nat) (body : List UInt8 → BlockIo α)
    (store : Nat → Block) (h : offset + size ≤ blockSz) :
    (BlockIo.read b offset size body).runStore store =
      (body ((store b).slice offset size)).runStore store := by
  rw [runStore, if_pos h]

theorem runStore_modify {α : Type} (b offset size : Nat)
    (body : List UInt8 → BlockIo (List UInt8 × α)) (store : Nat → Block)
    (h : offset + size ≤ blockSz) :
    (BlockIo.modify b offset size body).runStore store =
      match (body ((store b).slice offset size)).runStore store with
      | .ok ((bytes, a), store') =>
        .ok (a, Function.update store' b ((store' b).write offset size bytes))
      | .error e => .error e := by
  rw [runStore, if_pos h]

@[simp] theorem runStore_syncAll (store : Nat → Block) :
    BlockIo.syncAll.runStore store = .ok ((), store) := by
  simp [runStore]

@[simp] theorem runStore_panic {α : Type} (msg : String) (store : Nat → Block) :
    (BlockIo.panic msg : BlockIo α).runStore store = .error msg := by
  simp [runStore]

end BlockIo

namespace CacheState

variable {s : CacheState}

/-- From `s` to `s'` every allocation pinned in `s` stays alive and keeps its block. -/
def Keeps (s s' : CacheState) : Prop :=
  ∀ p c, 0 < s.ext p → s.heap p = some c → ∃ c', s'.heap p = some c' ∧ c'.blockId = c.blockId

theorem Keeps.refl (s : CacheState) : Keeps s s := fun _ c _ hc ↦ ⟨c, hc, rfl⟩

theorem Keeps.trans {s₁ s₂ s₃ : CacheState} (h₁ : Keeps s₁ s₂) (h₂ : Keeps s₂ s₃)
    (hpin : ∀ p, 0 < s₁.ext p → 0 < s₂.ext p) : Keeps s₁ s₃ := by
  intro p c hp hc
  obtain ⟨c', hc', hb⟩ := h₁ p c hp hc
  obtain ⟨c'', hc'', hb'⟩ := h₂ p c' (hpin p hp) hc'
  exact ⟨c'', hc'', hb'.trans hb⟩

/-- `get_block_cache` pins the handle it returns, on the block asked for, and keeps every
pinned allocation. -/
theorem Inv.getBlockCache_spec (hs : Inv s) {blockId p : Nat} {s' : CacheState}
    (h : CacheState.getBlockCache blockId s = .ok (p, s')) :
    Inv s' ∧ s'.logical = s.logical ∧ (∃ c, s'.heap p = some c ∧ c.blockId = blockId) ∧
      s'.ext = Function.update s.ext p (s.ext p + 1) ∧ Keeps s s' := by
  refine ⟨hs.getBlockCache h, (hs.logical_getBlockCache h).1, (hs.logical_getBlockCache h).2, ?_⟩
  rcases getBlockCache_eq_ok h with ⟨-, rfl⟩ | ⟨-, s₁, hroom, hpush⟩
  · exact ⟨rfl, Keeps.refl _⟩
  obtain ⟨hs₁, -, hnext, hcase⟩ := hs.makeRoom hroom
  obtain ⟨rfl, rfl⟩ := Prod.mk.inj hpush
  have hkeep : Keeps s s₁ ∧ s₁.ext = s.ext := by
    rcases hcase with rfl | ⟨l₁, x, l₂, c, hq, -, -, hx, rfl⟩
    · exact ⟨Keeps.refl _, rfl⟩
    · refine ⟨fun q d hq hd ↦ ⟨d, ?_, rfl⟩, rfl⟩
      have hqx : q ≠ x.2 := fun h ↦ by rw [h, hx] at hq; exact Nat.lt_irrefl 0 hq
      simpa [Function.update_noteq hqx] using hd
  refine ⟨by simp [CacheState.pushBack, hkeep.2], fun q d hq hd ↦ ?_⟩
  obtain ⟨d', hd', hb⟩ := hkeep.1 q d hq hd
  have hlive := hs₁.live q d' hd'
  obtain ⟨e, he, rfl⟩ := List.mem_map.mp hlive
  have hne : e.2 ≠ s₁.next := Nat.ne_of_lt (hs₁.fresh e he)
  exact ⟨d', by simp [CacheState.pushBack, Function.update_noteq hne, hd'], hb⟩

theorem Inv.keeps_release (hs : Inv s) {p : Nat} (hp : 0 < s.ext p) : Keeps s (s.release p) := by
  rw [hs.release_eq hp]; exact Keeps.refl s

theorem keeps_modify {p offset size : Nat} {f : List UInt8 → List UInt8} {s' : CacheState}
    (h : s.modify p offset size f = .ok s') : Keeps s s' := by
  obtain ⟨c, c', hc, hc', rfl⟩ := modify_eq_ok h
  obtain ⟨-, rfl⟩ := BlockCache.modify_eq_ok hc'
  intro q d _ hd
  by_cases hqp : q = p
  · subst hqp
    rw [hc] at hd; cases hd
    exact ⟨_, Function.update_same _ _ _, rfl⟩
  · exact ⟨d, by simpa [hqp] using hd, rfl⟩

theorem ext_modify {p offset size : Nat} {f : List UInt8 → List UInt8} {s' : CacheState}
    (h : s.modify p offset size f = .ok s') : s'.ext = s.ext := by
  obtain ⟨c, c', -, -, rfl⟩ := modify_eq_ok h; rfl

theorem keeps_blockCacheSyncAll (s : CacheState) : Keeps s s.blockCacheSyncAll := by
  suffices ∀ (l : List (Nat × Nat)) (t : CacheState) (p : Nat) (c : BlockCache),
      t.heap p = some c → ∃ c', (l.foldl (fun s e ↦ s.syncEntry e.2) t).heap p = some c' ∧
        c'.blockId = c.blockId from fun p c _ hc ↦ this _ _ p c hc
  intro l
  induction l with
  | nil => exact fun _ _ c hc ↦ ⟨c, hc, rfl⟩
  | cons e l ih =>
    intro t p c hc
    have : ∃ c', (t.syncEntry e.2).heap p = some c' ∧ c'.blockId = c.blockId := by
      rw [heap_syncEntry]
      split_ifs with hpe
      · subst hpe; exact ⟨_, by rw [hc]; rfl, by simp⟩
      · exact ⟨c, hc, rfl⟩
    obtain ⟨c', hc', hb⟩ := this
    obtain ⟨c'', hc'', hb'⟩ := ih _ p c' hc'
    exact ⟨c'', hc'', hb'.trans hb⟩

theorem update_pred_update_succ (f : Nat → Nat) (p : Nat) :
    Function.update (Function.update f p (f p + 1)) p (Function.update f p (f p + 1) p - 1) = f := by
  funext q
  by_cases hq : q = p <;> simp [hq]

/-- Pinning a handle and dropping it again leaves every pin as it was. -/
theorem Inv.ext_release_of_pin (hs : Inv s) {s₀ : CacheState} {p : Nat}
    (hext : s.ext = Function.update s₀.ext p (s₀.ext p + 1)) : (s.release p).ext = s₀.ext := by
  rw [hs.release_eq (by simp [hext])]
  show Function.update s.ext p (s.ext p - 1) = s₀.ext
  rw [hext]
  exact update_pred_update_succ _ _

theorem pin_of_pin {s₀ : CacheState} {p : Nat}
    (hext : s.ext = Function.update s₀.ext p (s₀.ext p + 1)) (q : Nat) (hq : 0 < s₀.ext q) :
    0 < s.ext q := by
  rw [hext, Function.update_apply]; split_ifs <;> omega

end CacheState

namespace BlockIo

open CacheState

/-- The cache refines the block array over whole computations: a returning run on the cache
returns what the run on `logical` returns and ends in its array, keeps the invariant, restores
every pin, and keeps every pinned allocation on its block. -/
theorem runCache_simulates {α : Type} (x : BlockIo α) {s s' : CacheState} {a : α}
    (hs : Inv s) (h : x.runCache s = .ok (a, s')) :
    x.runStore s.logical = .ok (a, s'.logical) ∧ Inv s' ∧ s'.ext = s.ext ∧ Keeps s s' := by
  induction x generalizing s s' with
  | pure a₀ =>
    rw [runCache] at h
    cases h
    exact ⟨by simp, hs, rfl, Keeps.refl s⟩
  | bind y k ihy ihk =>
    rw [runCache] at h
    split at h
    · rename_i b s₁ hy
      obtain ⟨hy', hs₁, hext₁, hk₁⟩ := ihy hs hy
      obtain ⟨hk', hs', hext', hk₂⟩ := ihk b hs₁ h
      exact ⟨by rw [runStore_bind, hy']; exact hk', hs', hext'.trans hext₁,
        hk₁.trans hk₂ fun q hq ↦ hext₁ ▸ hq⟩
    · cases h
  | read b offset size body ih =>
    rw [runCache] at h
    split at h
    · cases h
    rename_i p s₁ hget
    obtain ⟨hs₁, hl₁, ⟨c, hc, hcb⟩, hext₁, hk₁⟩ := hs.getBlockCache_spec hget
    have hp : 0 < s₁.ext p := by simp [hext₁]
    split at h
    · cases h
    rename_i bytes hread
    rw [hs₁.read_eq hp hc] at hread
    split_ifs at hread with hb
    cases hread
    split at h
    · cases h
    rename_i a₂ s₂ hbody
    cases h
    obtain ⟨hrun, hs₂, hext₂, hk₂⟩ := ih _ hs₁ hbody
    have hp₂ : 0 < s₂.ext p := hext₂ ▸ hp
    have hpin := pin_of_pin hext₁
    refine ⟨?_, hs₂.release hp₂, hs₂.ext_release_of_pin (hext₂.trans hext₁), ?_⟩
    · rw [runStore_read _ _ _ _ _ hb, ← hl₁, ← hcb, hrun, hs₂.logical_release hp₂]
    · exact (hk₁.trans hk₂ hpin).trans (hs₂.keeps_release hp₂) fun q hq ↦ hext₂ ▸ hpin q hq
  | modify b offset size body ih =>
    rw [runCache] at h
    split at h
    · cases h
    rename_i p s₁ hget
    obtain ⟨hs₁, hl₁, ⟨c, hc, hcb⟩, hext₁, hk₁⟩ := hs.getBlockCache_spec hget
    have hp : 0 < s₁.ext p := by simp [hext₁]
    split at h
    · cases h
    rename_i bytes hread
    rw [hs₁.read_eq hp hc] at hread
    split_ifs at hread with hb
    cases hread
    split at h
    · cases h
    rename_i new a₂ s₂ hbody
    split at h
    · cases h
    rename_i s₃ hmod
    cases h
    obtain ⟨hrun, hs₂, hext₂, hk₂⟩ := ih _ hs₁ hbody
    have hp₂ : 0 < s₂.ext p := hext₂ ▸ hp
    obtain ⟨c₂, hc₂, hcb₂⟩ := hk₂ p c hp hc
    have hs₃ := hs₂.modify hmod
    have hext₃ := ext_modify hmod
    have hp₃ : 0 < s₃.ext p := hext₃ ▸ hp₂
    have hpin := pin_of_pin hext₁
    refine ⟨?_, hs₃.release hp₃, hs₃.ext_release_of_pin (hext₃.trans (hext₂.trans hext₁)), ?_⟩
    · rw [runStore_modify _ _ _ _ _ hb, ← hl₁, ← hcb, hrun, hs₃.logical_release hp₃,
        hs₂.logical_modify hp₂ hc₂ hmod, hcb₂]
    · exact ((hk₁.trans hk₂ hpin).trans (keeps_modify hmod) fun q hq ↦ hext₂ ▸ hpin q hq).trans
        (hs₃.keeps_release hp₃) fun q hq ↦ hext₃ ▸ hext₂ ▸ hpin q hq
  | syncAll =>
    rw [runCache] at h
    cases h
    exact ⟨by rw [runStore_syncAll, hs.logical_blockCacheSyncAll], hs.blockCacheSyncAll,
      by simp, keeps_blockCacheSyncAll s⟩
  | panic msg =>
    rw [runCache] at h
    cases h

/-- A returning computation from a reachable state ends in a reachable state: each of its
accesses is a step of a client of the cache. -/
theorem runCache_reachable {α : Type} (x : BlockIo α) {s s' : CacheState} {a : α}
    (hs : Reachable s) (h : x.runCache s = .ok (a, s')) : Reachable s' := by
  induction x generalizing s s' with
  | pure a₀ =>
    rw [runCache] at h
    cases h
    exact hs
  | bind y k ihy ihk =>
    rw [runCache] at h
    split at h
    · exact ihk _ (ihy hs ‹_›) h
    · cases h
  | read b offset size body ih =>
    rw [runCache] at h
    split at h
    · cases h
    rename_i p s₁ hget
    have hr₁ : Reachable s₁ := .step hs (.get hget)
    obtain ⟨-, -, -, hext₁, -⟩ := hs.inv.getBlockCache_spec hget
    split at h
    · cases h
    split at h
    · cases h
    rename_i a₂ s₂ hbody
    cases h
    have hext₂ := (runCache_simulates _ hr₁.inv hbody).2.2.1
    exact .step (ih _ hr₁ hbody) (.release (by simp [hext₂, hext₁]))
  | modify b offset size body ih =>
    rw [runCache] at h
    split at h
    · cases h
    rename_i p s₁ hget
    have hr₁ : Reachable s₁ := .step hs (.get hget)
    obtain ⟨-, -, -, hext₁, -⟩ := hs.inv.getBlockCache_spec hget
    split at h
    · cases h
    split at h
    · cases h
    rename_i new a₂ s₂ hbody
    split at h
    · cases h
    rename_i s₃ hmod
    cases h
    have hext₂ := (runCache_simulates _ hr₁.inv hbody).2.2.1
    have hp : 0 < s₂.ext p := by simp [hext₂, hext₁]
    exact .step (.step (ih _ hr₁ hbody) (.modify hp hmod)) (.release (by rwa [ext_modify hmod]))
  | syncAll =>
    rw [runCache] at h
    cases h
    exact .step hs .syncAll
  | panic msg =>
    rw [runCache] at h
    cases h

end BlockIo

end Rcore.EasyFs
