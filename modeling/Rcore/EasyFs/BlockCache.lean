import Rcore.EasyFs.Block

/-!
# The block cache

`block_cache.rs`. A `BlockCache` holds one block in memory with a dirty flag; the global
`BlockCacheManager` keeps at most `BLOCK_CACHE_SIZE` of them in a queue in admission order.
Each entry is an `Arc<Mutex<BlockCache>>`, and a caller of `get_block_cache` gets a clone of
that `Arc`. Here an `Arc` is a pointer into `CacheState.heap`, fresh at every `Arc::new`, and
`CacheState.ext p` counts the clones held outside the queue, so that `Arc::strong_count` is
the number of queue entries holding `p` plus `ext p`. Dropping the last clone runs
`Drop for BlockCache`, which syncs the entry (`CacheState.dropUnreferenced`).

Every operation is sequential: the manager and each entry sit behind a spin lock, and an
operation of the cache holds them for its whole duration. `Step` is one operation a client
can take (a `get_block_cache`, a drop of a handle it holds, a `modify` through it, or a
`block_cache_sync_all`), and `Reachable` closes the empty cache over any sequence of them.
A panic (`Run out of BlockCache!`, or the offset assertion of `get_ref`/`get_mut`) ends the
run, so a step is only taken when it returns. Reading through a handle changes no state and
is treated with the refinement.

Scope. The `block_device` field of each entry is left out: all entries share one device, the
`device` of the state.
-/

set_option autoImplicit false
set_option relaxedAutoImplicit false

namespace Rcore.EasyFs

/-- `BlockCache`: the cached bytes, the block they mirror, and whether they were modified. -/
structure BlockCache where
  cache : Block
  blockId : Nat
  modified : Bool

namespace BlockCache

/-- `BlockCache::new`: load the block from the device, clean. -/
def new (blockId : Nat) (device : Nat → Block) : BlockCache :=
  ⟨device blockId, blockId, false⟩

/-- The panic of the assertion in `get_ref` and `get_mut`. -/
def typeSizeMsg : String := "assertion failed: offset + type_size <= BLOCK_SZ"

/-- `BlockCache::read`: `get_ref` checks the bound and hands the closure the image of a `T` of
`size` bytes at `offset`. -/
def getRef (c : BlockCache) (offset size : Nat) : Except String (List UInt8) :=
  if offset + size ≤ blockSz then .ok (c.cache.slice offset size) else .error typeSizeMsg

/-- `BlockCache::modify`: `get_mut` checks the bound and marks the entry modified, and the
closure rewrites the image of the `T`; `f` is the closure's effect on that image. -/
def modify (c : BlockCache) (offset size : Nat) (f : List UInt8 → List UInt8) :
    Except String BlockCache :=
  if offset + size ≤ blockSz then
    .ok { c with cache := c.cache.write offset size (f (c.cache.slice offset size)),
                 modified := true }
  else .error typeSizeMsg

/-- `BlockCache::sync`: write a modified entry back to the device and mark it clean. -/
def sync (c : BlockCache) (device : Nat → Block) : BlockCache × (Nat → Block) :=
  if c.modified then ({ c with modified := false }, Function.update device c.blockId c.cache)
  else (c, device)

theorem modify_eq_ok {c c' : BlockCache} {offset size : Nat} {f : List UInt8 → List UInt8}
    (h : c.modify offset size f = .ok c') :
    offset + size ≤ blockSz ∧ c' = { c with
      cache := c.cache.write offset size (f (c.cache.slice offset size)), modified := true } := by
  unfold modify at h
  split_ifs at h with hb
  exact ⟨hb, (Except.ok.inj h).symm⟩

@[simp] theorem blockId_sync (c : BlockCache) (device : Nat → Block) :
    (c.sync device).1.blockId = c.blockId := by
  unfold sync; split <;> rfl

@[simp] theorem cache_sync (c : BlockCache) (device : Nat → Block) :
    (c.sync device).1.cache = c.cache := by
  unfold sync; split <;> rfl

@[simp] theorem modified_sync (c : BlockCache) (device : Nat → Block) :
    (c.sync device).1.modified = false := by
  unfold sync; split <;> simp_all

/-- A sync writes at most the entry's own block, and that block receives the entry's bytes
when it was modified. -/
theorem device_sync (c : BlockCache) (device : Nat → Block) (b : Nat) :
    (c.sync device).2 b = if c.modified ∧ b = c.blockId then c.cache else device b := by
  unfold sync
  by_cases hm : c.modified <;> by_cases hb : b = c.blockId <;> simp [hm, hb]

end BlockCache

/-- `BLOCK_CACHE_SIZE`. -/
def blockCacheSize : Nat := 16

/-- The device, the `BlockCacheManager`, and the allocations its `Arc`s point to. -/
structure CacheState where
  /-- The block device. -/
  device : Nat → Block
  /-- `BlockCacheManager.queue` in admission order: a block id and the entry's pointer. -/
  queue : List (Nat × Nat)
  /-- The `Mutex<BlockCache>` allocations by pointer, `none` once dropped. -/
  heap : Nat → Option BlockCache
  /-- The clones of each `Arc` held outside the queue. -/
  ext : Nat → Nat
  /-- The address of the next `Arc::new`. -/
  next : Nat

namespace CacheState

/-- The empty manager of `BlockCacheManager::new` over a device. -/
def init (device : Nat → Block) : CacheState :=
  ⟨device, [], fun _ ↦ none, fun _ ↦ 0, 0⟩

/-- `Arc::strong_count`: the queue's clones of `p` and the clones outside. -/
def strongCount (s : CacheState) (p : Nat) : Nat :=
  s.queue.countP (fun e ↦ e.2 == p) + s.ext p

/-- Once no `Arc` of `p` is left, `Drop for BlockCache` syncs it and the allocation is freed. -/
def dropUnreferenced (s : CacheState) (p : Nat) : CacheState :=
  if s.strongCount p = 0 then
    match s.heap p with
    | some c => { s with device := (c.sync s.device).2, heap := Function.update s.heap p none }
    | none => s
  else s

/-- `self.queue.drain(idx..=idx)`: the entry leaves the queue and its `Arc` is dropped. -/
def evict (s : CacheState) (idx : Nat) : CacheState :=
  match s.queue[idx]? with
  | some e => ({ s with queue := s.queue.eraseIdx idx }).dropUnreferenced e.2
  | none => s

/-- The substitution step of a miss: at capacity, evict the first entry, from the front, whose
only `Arc` is the queue's, or panic. -/
def makeRoom (s : CacheState) : Except String CacheState :=
  if s.queue.length = blockCacheSize then
    match s.queue.findIdx? (fun e ↦ s.strongCount e.2 == 1) with
    | some idx => .ok (s.evict idx)
    | none => .error "Run out of BlockCache!"
  else .ok s

/-- A miss after `makeRoom`: load the block into a fresh entry at the back of the queue and
hand out a second `Arc` of it. -/
def pushBack (s : CacheState) (blockId : Nat) : Nat × CacheState :=
  (s.next, { s with
    queue := s.queue ++ [(blockId, s.next)]
    heap := Function.update s.heap s.next (some (BlockCache.new blockId s.device))
    ext := Function.update s.ext s.next (s.ext s.next + 1)
    next := s.next + 1 })

/-- `BlockCacheManager::get_block_cache`: on a hit, a clone of the entry's `Arc`; on a miss,
`makeRoom` and `pushBack`. -/
def getBlockCache (blockId : Nat) (s : CacheState) : Except String (Nat × CacheState) :=
  match s.queue.find? (fun e ↦ e.1 == blockId) with
  | some (_, p) => .ok (p, { s with ext := Function.update s.ext p (s.ext p + 1) })
  | none => (s.makeRoom).map fun s ↦ s.pushBack blockId

/-- A caller drops its handle `p`. -/
def release (s : CacheState) (p : Nat) : CacheState :=
  ({ s with ext := Function.update s.ext p (s.ext p - 1) }).dropUnreferenced p

/-- The text of a use of a freed allocation; holding a handle keeps its allocation, so no
step reaches it. -/
def freedMsg : String := "use of a dropped BlockCache"

/-- `handle.lock().read(offset, f)`: the image the closure `f` receives. -/
def read (s : CacheState) (p offset size : Nat) : Except String (List UInt8) :=
  match s.heap p with
  | some c => c.getRef offset size
  | none => .error freedMsg

/-- `handle.lock().modify(offset, f)`. -/
def modify (s : CacheState) (p offset size : Nat) (f : List UInt8 → List UInt8) :
    Except String CacheState :=
  match s.heap p with
  | some c =>
    (c.modify offset size f).map fun c ↦ { s with heap := Function.update s.heap p (some c) }
  | none => .error freedMsg

/-- `cache.lock().sync()` on the allocation `p`. -/
def syncEntry (s : CacheState) (p : Nat) : CacheState :=
  match s.heap p with
  | some c => { s with heap := Function.update s.heap p (some (c.sync s.device).1),
                       device := (c.sync s.device).2 }
  | none => s

/-- `block_cache_sync_all`: sync every entry of the queue, front to back, evicting none. -/
def blockCacheSyncAll (s : CacheState) : CacheState :=
  s.queue.foldl (fun s e ↦ s.syncEntry e.2) s

/-- One operation of a client of the cache. -/
inductive Step : CacheState → CacheState → Prop
  | get {s s' : CacheState} {blockId p : Nat} :
      getBlockCache blockId s = .ok (p, s') → Step s s'
  | release {s : CacheState} {p : Nat} : 0 < s.ext p → Step s (s.release p)
  | modify {s s' : CacheState} {p offset size : Nat} {f : List UInt8 → List UInt8} :
      0 < s.ext p → s.modify p offset size f = .ok s' → Step s s'
  | syncAll {s : CacheState} : Step s s.blockCacheSyncAll

/-- The states of the cache over one device after any sequence of operations. -/
inductive Reachable : CacheState → Prop
  | init (device : Nat → Block) : Reachable (init device)
  | step {s s' : CacheState} : Reachable s → Step s s' → Reachable s'

/-! ### Field lemmas -/

@[simp] theorem queue_syncEntry (s : CacheState) (p : Nat) :
    (s.syncEntry p).queue = s.queue := by
  unfold syncEntry; split <;> rfl

@[simp] theorem ext_syncEntry (s : CacheState) (p : Nat) : (s.syncEntry p).ext = s.ext := by
  unfold syncEntry; split <;> rfl

@[simp] theorem next_syncEntry (s : CacheState) (p : Nat) : (s.syncEntry p).next = s.next := by
  unfold syncEntry; split <;> rfl

@[simp] theorem queue_dropUnreferenced (s : CacheState) (p : Nat) :
    (s.dropUnreferenced p).queue = s.queue := by
  unfold dropUnreferenced; split_ifs <;> [split <;> rfl; rfl]

@[simp] theorem ext_dropUnreferenced (s : CacheState) (p : Nat) :
    (s.dropUnreferenced p).ext = s.ext := by
  unfold dropUnreferenced; split_ifs <;> [split <;> rfl; rfl]

@[simp] theorem next_dropUnreferenced (s : CacheState) (p : Nat) :
    (s.dropUnreferenced p).next = s.next := by
  unfold dropUnreferenced; split_ifs <;> [split <;> rfl; rfl]

@[simp] theorem queue_release (s : CacheState) (p : Nat) :
    (s.release p).queue = s.queue := by simp [release]

@[simp] theorem ext_release (s : CacheState) (p : Nat) :
    (s.release p).ext = Function.update s.ext p (s.ext p - 1) := by simp [release]

@[simp] theorem next_release (s : CacheState) (p : Nat) : (s.release p).next = s.next := by
  simp [release]

theorem modify_eq_ok {s s' : CacheState} {p offset size : Nat} {f : List UInt8 → List UInt8}
    (h : s.modify p offset size f = .ok s') :
    ∃ c c', s.heap p = some c ∧ c.modify offset size f = .ok c' ∧
      s' = { s with heap := Function.update s.heap p (some c') } := by
  unfold modify at h
  split at h
  · rename_i c hc
    cases hm : c.modify offset size f with
    | error e => simp [hm, Except.map] at h
    | ok c' =>
      simp only [hm, Except.map, Except.ok.injEq] at h
      exact ⟨c, c', hc, hm, h.symm⟩
  · cases h

@[simp] theorem queue_blockCacheSyncAll (s : CacheState) :
    s.blockCacheSyncAll.queue = s.queue := by
  suffices ∀ (l : List (Nat × Nat)) (t : CacheState),
      (l.foldl (fun s e ↦ s.syncEntry e.2) t).queue = t.queue from this _ _
  intro l
  induction l with
  | nil => intro t; rfl
  | cons e l ih => intro t; simp [ih]

@[simp] theorem ext_blockCacheSyncAll (s : CacheState) : s.blockCacheSyncAll.ext = s.ext := by
  suffices ∀ (l : List (Nat × Nat)) (t : CacheState),
      (l.foldl (fun s e ↦ s.syncEntry e.2) t).ext = t.ext from this _ _
  intro l
  induction l with
  | nil => intro t; rfl
  | cons e l ih => intro t; simp [ih]

/-- What a returning `get_block_cache` did: a hit on the entry of the block, or a miss that made
room and admitted the block. -/
theorem getBlockCache_eq_ok {s s' : CacheState} {blockId p : Nat}
    (h : getBlockCache blockId s = .ok (p, s')) :
    ((blockId, p) ∈ s.queue ∧ s' = { s with ext := Function.update s.ext p (s.ext p + 1) }) ∨
      (blockId ∉ s.queue.map Prod.fst ∧ ∃ s₁, s.makeRoom = .ok s₁ ∧ (p, s') = s₁.pushBack blockId) := by
  unfold getBlockCache at h
  split at h
  · rename_i b q hf
    have hb : b = blockId := by simpa using List.find?_some hf
    cases h
    exact .inl ⟨hb ▸ List.mem_of_find?_eq_some hf, rfl⟩
  · rename_i hf
    refine .inr ⟨fun hm ↦ ?_, ?_⟩
    · obtain ⟨e, he, rfl⟩ := List.mem_map.mp hm
      simpa using List.find?_eq_none.mp hf e he
    · cases hm : s.makeRoom with
      | error e => simp [hm, Except.map] at h
      | ok s₁ =>
        simp only [hm, Except.map, Except.ok.injEq] at h
        exact ⟨s₁, rfl, h.symm⟩

end CacheState

end Rcore.EasyFs
