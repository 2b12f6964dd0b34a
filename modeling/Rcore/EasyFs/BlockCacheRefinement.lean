import Rcore.EasyFs.BlockCacheInvariant

/-!
# The block cache refines an array of blocks

`CacheState.logical b` is what a reader of block `b` sees: the bytes of the resident entry of
`b` when there is one, and the device's block `b` otherwise. Under the invariant every
operation of `block_cache.rs` acts on `logical` as on a plain array of blocks: a read through a
handle for `b` returns an image of `logical b` (`Inv.read_eq`), a modify rewrites that image and
nothing else (`Inv.logical_modify`), and `get_block_cache` (hit, eviction with write-back,
load), dropping a handle and `block_cache_sync_all` leave `logical` unchanged
(`Inv.logical_getBlockCache`, `Inv.logical_release`, `Inv.logical_blockCacheSyncAll`).
`blockCache_refines_blockArray` states this for every reachable state.

The refinement rests on the coherence field of the invariant: a clean entry holds the
device's bytes, so evicting it loses nothing. After `block_cache_sync_all` every entry is clean
and the device is the array (`cleanEntries_match_device`).
-/

set_option autoImplicit false
set_option relaxedAutoImplicit false

namespace Rcore.EasyFs

namespace CacheState

/-- `logical(b)`: the resident entry's bytes for `b`, or the device's block. -/
def logical (s : CacheState) (b : Nat) : Block :=
  match s.queue.find? (fun e ↦ e.1 == b) with
  | some e =>
    match s.heap e.2 with
    | some c => c.cache
    | none => s.device b
  | none => s.device b

variable {s : CacheState}

theorem Inv.logical_of_mem (hs : Inv s) {e : Nat × Nat} (he : e ∈ s.queue) {c : BlockCache}
    (hc : s.heap e.2 = some c) : s.logical e.1 = c.cache := by
  simp [logical, List.find?_key_of_mem hs.keys_nodup he, hc]

theorem logical_of_not_mem {b : Nat} (hb : b ∉ s.queue.map Prod.fst) :
    s.logical b = s.device b := by
  simp [logical, List.find?_key_eq_none.mpr hb]

/-- `logical` at a block either comes from its resident entry or from the device. -/
theorem Inv.logical_cases (hs : Inv s) (b : Nat) :
    (∃ e c, e ∈ s.queue ∧ e.1 = b ∧ s.heap e.2 = some c ∧ s.logical b = c.cache) ∨
      (b ∉ s.queue.map Prod.fst ∧ s.logical b = s.device b) := by
  by_cases hb : b ∈ s.queue.map Prod.fst
  · obtain ⟨e, he, rfl⟩ := List.mem_map.mp hb
    obtain ⟨c, hc, -⟩ := hs.entry e he
    exact .inl ⟨e, c, he, rfl, hc, hs.logical_of_mem he hc⟩
  · exact .inr ⟨hb, logical_of_not_mem hb⟩

/-- A handle held outside the queue mirrors the resident entry of its block. -/
theorem Inv.mem_of_pinned (hs : Inv s) {p : Nat} (hp : 0 < s.ext p) {c : BlockCache}
    (hc : s.heap p = some c) : (c.blockId, p) ∈ s.queue := by
  obtain ⟨e, he, rfl⟩ := List.mem_map.mp (hs.pinned p hp)
  obtain ⟨c', hc', hb⟩ := hs.entry e he
  rw [hc] at hc'
  cases hc'
  rwa [hb]

/-- No two live allocations mirror the same block. -/
theorem Inv.eq_of_blockId (hs : Inv s) {p q : Nat} {c d : BlockCache} (hp : s.heap p = some c)
    (hq : s.heap q = some d) (h : c.blockId = d.blockId) : p = q := by
  obtain ⟨e, he, rfl⟩ := List.mem_map.mp (hs.live p c hp)
  obtain ⟨f, hf, rfl⟩ := List.mem_map.mp (hs.live q d hq)
  obtain ⟨c', hc', hce⟩ := hs.entry e he
  obtain ⟨d', hd', hdf⟩ := hs.entry f hf
  rw [hp] at hc'; rw [hq] at hd'
  cases hc'; cases hd'
  rw [hs.eq_of_key he hf (hce.symm.trans (h.trans hdf))]

/-! ### Each operation on `logical` -/

theorem Inv.read_eq (hs : Inv s) {p : Nat} (hp : 0 < s.ext p) {c : BlockCache}
    (hc : s.heap p = some c) (offset size : Nat) :
    s.read p offset size = if offset + size ≤ blockSz then
      .ok ((s.logical c.blockId).slice offset size) else .error BlockCache.typeSizeMsg := by
  rw [hs.logical_of_mem (hs.mem_of_pinned hp hc) hc]
  simp [CacheState.read, hc, BlockCache.getRef]

theorem Inv.logical_modify (hs : Inv s) {p : Nat} (hp : 0 < s.ext p) {c : BlockCache}
    (hc : s.heap p = some c) {offset size : Nat} {f : List UInt8 → List UInt8} {s' : CacheState}
    (h : s.modify p offset size f = .ok s') :
    s'.logical = Function.update s.logical c.blockId ((s.logical c.blockId).write offset size
      (f ((s.logical c.blockId).slice offset size))) := by
  obtain ⟨c₀, c', hc₀, hc', rfl⟩ := modify_eq_ok h
  rw [hc] at hc₀; cases hc₀
  obtain ⟨-, rfl⟩ := BlockCache.modify_eq_ok hc'
  have hmem := hs.mem_of_pinned hp hc
  rw [hs.logical_of_mem hmem hc]
  funext b
  by_cases hb : b = c.blockId
  · subst hb
    simp [logical, List.find?_key_of_mem hs.keys_nodup hmem]
  · rw [Function.update_noteq hb]
    rcases hs.logical_cases b with ⟨e, d, he, rfl, hd, hl⟩ | ⟨hnot, hl⟩
    · have hep : e.2 ≠ p := fun h ↦ hb (congrArg Prod.fst (hs.eq_of_ptr he hmem h))
      rw [hl]
      simp [logical, List.find?_key_of_mem hs.keys_nodup he, Function.update_noteq hep, hd]
    · rw [hl]
      exact logical_of_not_mem hnot

/-- A dropped handle leaves `logical` as it was. -/
theorem Inv.logical_release (hs : Inv s) {p : Nat} (hp : 0 < s.ext p) :
    (s.release p).logical = s.logical := by
  rw [hs.release_eq hp]; rfl

/-- An eviction writes back a dirty entry; a clean one already equals the device. -/
theorem Inv.logical_makeRoom (hs : Inv s) {s' : CacheState} (h : s.makeRoom = .ok s') :
    s'.logical = s.logical := by
  obtain ⟨hs', -, -, rfl | ⟨l₁, x, l₂, c, hq, hc, hcb, -, rfl⟩⟩ := hs.makeRoom h
  · rfl
  have hxq : x ∈ s.queue := by rw [hq]; simp
  have hptr : ∀ e ∈ l₁ ++ l₂, e.2 ≠ x.2 := fun e he ↦
    List.map_ne_of_split (hq ▸ hs.ptrs_nodup) he
  have hmem : ∀ e ∈ l₁ ++ l₂, e ∈ s.queue := fun e he ↦ by
    rw [hq]; rcases List.mem_append.mp he with h | h <;> simp [h]
  funext b
  by_cases hbx : b = x.1
  · subst hbx
    have hnot : x.1 ∉ (l₁ ++ l₂).map Prod.fst := fun hm ↦ by
      obtain ⟨e, he, hex⟩ := List.mem_map.mp hm
      exact List.map_ne_of_split (hq ▸ hs.keys_nodup) he hex
    rw [logical_of_not_mem hnot, hs.logical_of_mem hxq hc]
    dsimp only
    rw [BlockCache.device_sync]
    by_cases hm : c.modified
    · simp [hm, hcb]
    · simpa [hm] using (hs.coherent x hxq c hc (by simpa using hm)).symm
  · rcases hs.logical_cases b with ⟨e, d, he, rfl, hd, hl⟩ | ⟨hnot, hl⟩
    · have hne : e ≠ x := fun h ↦ hbx (h ▸ rfl)
      have he' : e ∈ l₁ ++ l₂ := by
        rw [hq] at he; simp only [List.mem_append, List.mem_cons] at he ⊢; tauto
      rw [hl, hs'.logical_of_mem he' (by simpa [Function.update_noteq (hptr e he')] using hd)]
    · have hnot' : b ∉ (l₁ ++ l₂).map Prod.fst := fun hm ↦ hnot (by
        obtain ⟨e, he, rfl⟩ := List.mem_map.mp hm
        exact List.mem_map_of_mem _ (hmem e he))
      rw [logical_of_not_mem hnot', hl]
      dsimp only
      rw [BlockCache.device_sync, if_neg (fun h ↦ hbx (h.2.trans hcb))]

/-- A miss loads the block from the device, which is what `logical` held for it. -/
theorem Inv.logical_pushBack (hs : Inv s) {blockId : Nat} (hb : blockId ∉ s.queue.map Prod.fst)
    (hlen : s.queue.length < blockCacheSize) : (s.pushBack blockId).2.logical = s.logical := by
  have hs' := hs.pushBack hb hlen
  have hfresh : ∀ e ∈ s.queue, e.2 ≠ s.next := fun e he h ↦ by
    have := hs.fresh e he; omega
  funext b
  by_cases hbb : b = blockId
  · subst hbb
    rw [logical_of_not_mem hb,
      show b = ((b, s.next) : Nat × Nat).1 from rfl,
      hs'.logical_of_mem (c := BlockCache.new b s.device) (by simp [CacheState.pushBack])
        (by simp [CacheState.pushBack])]
    rfl
  · rcases hs.logical_cases b with ⟨e, d, he, rfl, hd, hl⟩ | ⟨hnot, hl⟩
    · rw [hl, hs'.logical_of_mem (by simp [CacheState.pushBack, he])
        (by simpa [CacheState.pushBack, Function.update_noteq (hfresh e he)] using hd)]
    · have hnot' : b ∉ (s.pushBack blockId).2.queue.map Prod.fst := by
        simp only [CacheState.pushBack, List.map_append, List.mem_append, List.map_cons,
          List.map_nil, List.mem_singleton, hbb, or_false]
        exact hnot
      rw [hl, logical_of_not_mem hnot']
      rfl

/-- `get_block_cache` leaves `logical` unchanged, and the handle it returns mirrors the block
asked for. -/
theorem Inv.logical_getBlockCache (hs : Inv s) {blockId p : Nat} {s' : CacheState}
    (h : CacheState.getBlockCache blockId s = .ok (p, s')) :
    s'.logical = s.logical ∧ ∃ c, s'.heap p = some c ∧ c.blockId = blockId := by
  rcases getBlockCache_eq_ok h with ⟨he, rfl⟩ | ⟨hb, s₁, hroom, hpush⟩
  · exact ⟨rfl, hs.entry _ he⟩
  · obtain ⟨hs₁, hlen, -, hcase⟩ := hs.makeRoom hroom
    have hb₁ : blockId ∉ s₁.queue.map Prod.fst := by
      rcases hcase with rfl | ⟨l₁, x, l₂, c, hq, -, -, -, rfl⟩
      · exact hb
      · intro hm
        obtain ⟨e, he, rfl⟩ := List.mem_map.mp hm
        exact hb (List.mem_map_of_mem _ (by rw [hq]; simp at he ⊢; tauto))
    obtain ⟨rfl, rfl⟩ := Prod.mk.inj hpush
    exact ⟨(hs₁.logical_pushBack hb₁ hlen).trans (hs.logical_makeRoom hroom),
      BlockCache.new blockId s₁.device, by simp [CacheState.pushBack], rfl⟩

theorem heap_syncEntry (t : CacheState) (q p : Nat) :
    (t.syncEntry q).heap p =
      if p = q then (t.heap q).map (fun c ↦ (c.sync t.device).1) else t.heap p := by
  unfold syncEntry
  by_cases hpq : p = q
  · subst hpq
    cases hq : t.heap p <;> simp [hq]
  · cases hq : t.heap q <;> simp [hq, hpq]

/-- Syncing one entry writes back its bytes: `logical` is unchanged. -/
theorem Inv.logical_syncEntry (hs : Inv s) {e : Nat × Nat} (he : e ∈ s.queue) :
    (s.syncEntry e.2).logical = s.logical := by
  have hs' := hs.syncEntry he
  obtain ⟨c, hc, hcb⟩ := hs.entry e he
  funext b
  rcases hs.logical_cases b with ⟨f, d, hf, rfl, hd, hl⟩ | ⟨hnot, hl⟩
  · have hf' : f ∈ (s.syncEntry e.2).queue := by simpa using hf
    rw [hl]
    by_cases hfe : f.2 = e.2
    · have hdc : d = c := Option.some.inj (hd.symm.trans (by rw [hfe]; exact hc))
      subst hdc
      rw [hs'.logical_of_mem hf' (c := (d.sync s.device).1)
        (by rw [heap_syncEntry, if_pos hfe, ← hfe, hd]; rfl)]
      simp
    · rw [hs'.logical_of_mem hf' (c := d) (by rw [heap_syncEntry, if_neg hfe, hd])]
  · rw [hl, logical_of_not_mem (by simpa using hnot)]
    simp only [CacheState.syncEntry, hc, BlockCache.device_sync]
    rw [if_neg fun h : c.modified = true ∧ b = c.blockId ↦
      hnot (by rw [h.2, hcb]; exact List.mem_map_of_mem _ he)]

/-- The entries a step of `block_cache_sync_all` has reached are clean. -/
def Clean (t : CacheState) (e : Nat × Nat) : Prop := ∀ c, t.heap e.2 = some c → c.modified = false

theorem clean_syncEntry {t : CacheState} {e : Nat × Nat} (q : Nat) (h : e.2 = q ∨ Clean t e) :
    Clean (t.syncEntry q) e := by
  intro c hc
  rw [heap_syncEntry] at hc
  split_ifs at hc with heq
  · obtain ⟨c₀, -, rfl⟩ := Option.map_eq_some'.mp hc
    exact BlockCache.modified_sync _ _
  · exact h.resolve_left heq c hc

/-- `block_cache_sync_all` keeps `logical` and leaves every entry clean. -/
theorem Inv.blockCacheSyncAll_spec (hs : Inv s) :
    s.blockCacheSyncAll.logical = s.logical ∧ ∀ e ∈ s.queue, Clean s.blockCacheSyncAll e := by
  suffices ∀ (l : List (Nat × Nat)) (t : CacheState), Inv t → t.queue = s.queue →
      (∀ e ∈ l, e ∈ s.queue) →
      (l.foldl (fun s e ↦ s.syncEntry e.2) t).logical = t.logical ∧
        ∀ e ∈ s.queue, (e ∈ l ∨ Clean t e) → Clean (l.foldl (fun s e ↦ s.syncEntry e.2) t) e by
    obtain ⟨h₁, h₂⟩ := this s.queue s hs rfl fun _ h ↦ h
    exact ⟨h₁, fun e he ↦ h₂ e he (.inl he)⟩
  intro l
  induction l with
  | nil => exact fun t _ _ _ ↦ ⟨rfl, fun e _ h ↦ h.resolve_left (List.not_mem_nil e)⟩
  | cons f l ih =>
    intro t ht hq hl
    have hf : f ∈ t.queue := hq ▸ hl f (List.mem_cons_self _ _)
    obtain ⟨h₁, h₂⟩ := ih _ (ht.syncEntry hf) (by simp [hq])
      fun e he ↦ hl e (List.mem_cons_of_mem _ he)
    refine ⟨h₁.trans (ht.logical_syncEntry hf), fun e he hcl ↦ h₂ e he ?_⟩
    rcases hcl with hcl | hcl
    · rcases List.mem_cons.mp hcl with rfl | hcl
      · exact .inr (clean_syncEntry _ (.inl rfl))
      · exact .inl hcl
    · exact .inr (clean_syncEntry _ (.inr hcl))

theorem Inv.logical_blockCacheSyncAll (hs : Inv s) : s.blockCacheSyncAll.logical = s.logical :=
  hs.blockCacheSyncAll_spec.1

/-- When every entry is clean, the device is the array. -/
theorem Inv.device_eq_logical (hs : Inv s) (hclean : ∀ e ∈ s.queue, Clean s e) :
    s.device = s.logical := by
  funext b
  rcases hs.logical_cases b with ⟨e, c, he, rfl, hc, hl⟩ | ⟨-, hl⟩
  · rw [hl, hs.coherent e he c hc (hclean e he c hc)]
  · exact hl.symm

/-! ### The refinement -/

/-- The block cache with the device refines a plain array of blocks, `logical`: in every
reachable state a read through a handle for block `b` returns an image of `logical b`, a
modify through it rewrites exactly that image of `logical b` and no other block,
`get_block_cache`, dropping a handle and `block_cache_sync_all` leave `logical` unchanged, and
no two live `BlockCache` allocations mirror the same block. -/
theorem blockCache_refines_blockArray {s : CacheState} (hs : Reachable s) :
    (∀ p c offset size, 0 < s.ext p → s.heap p = some c →
      s.read p offset size = if offset + size ≤ blockSz then
        .ok ((s.logical c.blockId).slice offset size) else .error BlockCache.typeSizeMsg) ∧
    (∀ p c offset size f s', 0 < s.ext p → s.heap p = some c →
      s.modify p offset size f = .ok s' →
      s'.logical = Function.update s.logical c.blockId ((s.logical c.blockId).write offset size
        (f ((s.logical c.blockId).slice offset size)))) ∧
    (∀ blockId p s', getBlockCache blockId s = .ok (p, s') →
      s'.logical = s.logical ∧ ∃ c, s'.heap p = some c ∧ c.blockId = blockId) ∧
    (∀ p, 0 < s.ext p → (s.release p).logical = s.logical) ∧
    s.blockCacheSyncAll.logical = s.logical ∧
    (∀ p q c d, s.heap p = some c → s.heap q = some d → c.blockId = d.blockId → p = q) :=
  have hi := hs.inv
  ⟨fun _ _ offset size hp hc ↦ hi.read_eq hp hc offset size,
    fun _ _ _ _ _ _ hp hc h ↦ hi.logical_modify hp hc h,
    fun _ _ _ h ↦ hi.logical_getBlockCache h,
    fun _ hp ↦ hi.logical_release hp,
    hi.logical_blockCacheSyncAll,
    fun _ _ _ _ hp hq h ↦ hi.eq_of_blockId hp hq h⟩

theorem blockCache_refines_blockArray_loadedSeven :
    Reachable loadedSeven ∧
    (∀ p c offset size, 0 < loadedSeven.ext p → loadedSeven.heap p = some c →
      loadedSeven.read p offset size = if offset + size ≤ blockSz then
        .ok ((loadedSeven.logical c.blockId).slice offset size) else .error BlockCache.typeSizeMsg) ∧
    (∀ p c offset size f s', 0 < loadedSeven.ext p → loadedSeven.heap p = some c →
      loadedSeven.modify p offset size f = .ok s' →
      s'.logical = Function.update loadedSeven.logical c.blockId
        ((loadedSeven.logical c.blockId).write offset size
          (f ((loadedSeven.logical c.blockId).slice offset size)))) ∧
    (∀ blockId p s', getBlockCache blockId loadedSeven = .ok (p, s') →
      s'.logical = loadedSeven.logical ∧ ∃ c, s'.heap p = some c ∧ c.blockId = blockId) ∧
    (∀ p, 0 < loadedSeven.ext p → (loadedSeven.release p).logical = loadedSeven.logical) ∧
    loadedSeven.blockCacheSyncAll.logical = loadedSeven.logical ∧
    (∀ p q c d, loadedSeven.heap p = some c → loadedSeven.heap q = some d →
      c.blockId = d.blockId → p = q) :=
  ⟨reachable_loadedSeven, blockCache_refines_blockArray reachable_loadedSeven⟩

/-- In every reachable state a clean entry holds the device's bytes of its block; after
`block_cache_sync_all` every entry is clean and the device equals `logical` at every block. -/
theorem cleanEntries_match_device {s : CacheState} (hs : Reachable s) :
    (∀ e ∈ s.queue, ∀ c, s.heap e.2 = some c → c.modified = false → c.cache = s.device e.1) ∧
    (∀ b, s.blockCacheSyncAll.device b = s.logical b) ∧
    ∀ e ∈ s.blockCacheSyncAll.queue, ∀ c, s.blockCacheSyncAll.heap e.2 = some c →
      c.modified = false := by
  have hi := hs.inv
  obtain ⟨hl, hclean⟩ := hi.blockCacheSyncAll_spec
  have hq := queue_blockCacheSyncAll s
  refine ⟨hi.coherent, fun b ↦ ?_, fun e he ↦ hclean e (hq ▸ he)⟩
  rw [hi.blockCacheSyncAll.device_eq_logical (fun e he ↦ hclean e (hq ▸ he)), hl]

theorem cleanEntries_match_device_loadedSeven :
    Reachable loadedSeven ∧
    (∀ e ∈ loadedSeven.queue, ∀ c, loadedSeven.heap e.2 = some c → c.modified = false →
      c.cache = loadedSeven.device e.1) ∧
    (∀ b, loadedSeven.blockCacheSyncAll.device b = loadedSeven.logical b) ∧
    ∀ e ∈ loadedSeven.blockCacheSyncAll.queue, ∀ c,
      loadedSeven.blockCacheSyncAll.heap e.2 = some c → c.modified = false :=
  ⟨reachable_loadedSeven, cleanEntries_match_device reachable_loadedSeven⟩

end CacheState

end Rcore.EasyFs
