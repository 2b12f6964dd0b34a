import Rcore.EasyFs.BlockCache
import Mathlib.Data.List.Nodup

/-!
# Invariants of the block cache manager

`CacheState.Inv` is what every reachable state of the cache keeps: the queue holds at most
`BLOCK_CACHE_SIZE` entries with pairwise distinct block ids and pointers, each queue entry's
allocation mirrors its own key, every outstanding handle points into the queue, only queued
allocations are alive, and a clean entry holds the device's bytes of its block. Each operation
keeps it (`Inv.getBlockCache`, `Inv.release`, `Inv.modify`, `Inv.blockCacheSyncAll`), so
`Reachable.inv` holds of every reachable state.

`cacheManager_invariants` collects what the manager promises over every run: the bound, the
distinct keys, the entries' own block ids, that no step removes an entry with an outstanding
handle, and that `get_block_cache` panics exactly when the block is absent and all sixteen
entries are pinned.
-/

set_option autoImplicit false
set_option relaxedAutoImplicit false

namespace Rcore.EasyFs

/-! ### Queue lemmas -/

/-- A found index splits the list around the found element, and `eraseIdx` removes it. -/
theorem List.split_of_findIdx?_eq_some {α : Type} {pred : α → Bool} :
    ∀ {q : List α} {idx : Nat}, q.findIdx? pred = some idx →
      ∃ l₁ x l₂, q = l₁ ++ x :: l₂ ∧ pred x ∧ q[idx]? = some x ∧ q.eraseIdx idx = l₁ ++ l₂
  | [], _, h => by simp at h
  | y :: ys, idx, h => by
    rw [List.findIdx?_cons] at h
    split at h
    · cases h
      exact ⟨[], y, ys, rfl, ‹_›, by simp, rfl⟩
    · rw [List.findIdx?_succ] at h
      obtain ⟨k, hk, rfl⟩ := Option.map_eq_some'.mp h
      obtain ⟨l₁, x, l₂, rfl, hx, hget, herase⟩ := split_of_findIdx?_eq_some hk
      exact ⟨y :: l₁, x, l₂, rfl, hx, by simpa using hget, by simp [herase]⟩

/-- Under distinct images, the elements around a split point have an image other than its. -/
theorem List.map_ne_of_split {α β : Type} {f : α → β} {l₁ l₂ : List α} {x e : α}
    (h : ((l₁ ++ x :: l₂).map f).Nodup) (he : e ∈ l₁ ++ l₂) : f e ≠ f x := by
  rw [List.map_append, List.map_cons, List.nodup_middle, List.nodup_cons, ← List.map_append] at h
  exact fun hfx ↦ h.1 (hfx ▸ List.mem_map_of_mem f he)

theorem List.countP_snd_eq_count (q : List (Nat × Nat)) (p : Nat) :
    q.countP (fun e ↦ e.2 == p) = (q.map Prod.snd).count p := by
  rw [List.count, List.countP_map]; rfl

/-- The queue entry with a given key, under distinct keys. -/
theorem List.find?_key_of_mem {q : List (Nat × Nat)} (hq : (q.map Prod.fst).Nodup)
    {e : Nat × Nat} (he : e ∈ q) : q.find? (fun x ↦ x.1 == e.1) = some e := by
  cases hf : q.find? (fun x ↦ x.1 == e.1) with
  | none => simpa using List.find?_eq_none.mp hf e he
  | some x =>
    have hx := List.find?_some hf
    exact congrArg some (List.inj_on_of_nodup_map hq (List.mem_of_find?_eq_some hf) he
      (by simpa using hx))

theorem List.find?_key_eq_none {q : List (Nat × Nat)} {b : Nat} :
    q.find? (fun x ↦ x.1 == b) = none ↔ b ∉ q.map Prod.fst := by
  simp only [List.find?_eq_none, beq_iff_eq, List.mem_map, not_exists, not_and]

namespace CacheState

/-! ### The invariant -/

/-- The invariant of the cache manager. -/
structure Inv (s : CacheState) : Prop where
  length_le : s.queue.length ≤ blockCacheSize
  keys_nodup : (s.queue.map Prod.fst).Nodup
  ptrs_nodup : (s.queue.map Prod.snd).Nodup
  entry : ∀ e ∈ s.queue, ∃ c, s.heap e.2 = some c ∧ c.blockId = e.1
  pinned : ∀ p, 0 < s.ext p → p ∈ s.queue.map Prod.snd
  live : ∀ p c, s.heap p = some c → p ∈ s.queue.map Prod.snd
  fresh : ∀ e ∈ s.queue, e.2 < s.next
  coherent : ∀ e ∈ s.queue, ∀ c, s.heap e.2 = some c → c.modified = false →
    c.cache = s.device e.1

variable {s : CacheState}

theorem inv_init (device : Nat → Block) : Inv (init device) where
  length_le := by simp [init, blockCacheSize]
  keys_nodup := by simp [init]
  ptrs_nodup := by simp [init]
  entry := by simp [init]
  pinned := by simp [init]
  live := by simp [init]
  fresh := by simp [init]
  coherent := by simp [init]

theorem Inv.strongCount_of_mem (hs : Inv s) {e : Nat × Nat} (he : e ∈ s.queue) :
    s.strongCount e.2 = 1 + s.ext e.2 := by
  rw [strongCount, List.countP_snd_eq_count,
    List.count_eq_one_of_mem hs.ptrs_nodup (List.mem_map_of_mem _ he)]

/-- Two queue entries with one key, or one pointer, are one entry. -/
theorem Inv.eq_of_key (hs : Inv s) {e f : Nat × Nat} (he : e ∈ s.queue) (hf : f ∈ s.queue)
    (h : e.1 = f.1) : e = f :=
  List.inj_on_of_nodup_map hs.keys_nodup he hf h

theorem Inv.eq_of_ptr (hs : Inv s) {e f : Nat × Nat} (he : e ∈ s.queue) (hf : f ∈ s.queue)
    (h : e.2 = f.2) : e = f :=
  List.inj_on_of_nodup_map hs.ptrs_nodup he hf h

/-! ### Each operation keeps the invariant -/

theorem Inv.hit (hs : Inv s) {e : Nat × Nat} (he : e ∈ s.queue) :
    Inv { s with ext := Function.update s.ext e.2 (s.ext e.2 + 1) } where
  length_le := hs.length_le
  keys_nodup := hs.keys_nodup
  ptrs_nodup := hs.ptrs_nodup
  entry := hs.entry
  pinned p hp := by
    by_cases hpe : p = e.2
    · exact hpe ▸ List.mem_map_of_mem _ he
    · exact hs.pinned p (by simpa [hpe] using hp)
  live := hs.live
  fresh := hs.fresh
  coherent := hs.coherent

/-- An eviction removes the one entry found, whose only `Arc` was the queue's; its drop writes
it back, to its own block only. -/
theorem Inv.evict (hs : Inv s) {idx : Nat}
    (h : s.queue.findIdx? (fun e ↦ s.strongCount e.2 == 1) = some idx) :
    ∃ l₁ x l₂ c, s.queue = l₁ ++ x :: l₂ ∧ s.heap x.2 = some c ∧ c.blockId = x.1 ∧
      s.ext x.2 = 0 ∧ s.evict idx = { s with queue := l₁ ++ l₂, device := (c.sync s.device).2,
                                             heap := Function.update s.heap x.2 none } ∧
      Inv (s.evict idx) := by
  obtain ⟨l₁, x, l₂, hq, hx, hget, herase⟩ := List.split_of_findIdx?_eq_some h
  have hxq : x ∈ s.queue := hq ▸ List.mem_append_right _ (List.mem_cons_self _ _)
  have hmem : ∀ e ∈ l₁ ++ l₂, e ∈ s.queue := fun e he ↦ by
    rw [hq]; rcases List.mem_append.mp he with h | h <;> simp [h]
  have hptr : ∀ e ∈ l₁ ++ l₂, e.2 ≠ x.2 := fun e he ↦
    List.map_ne_of_split (hq ▸ hs.ptrs_nodup) he
  have hkey : ∀ e ∈ l₁ ++ l₂, e.1 ≠ x.1 := fun e he ↦
    List.map_ne_of_split (hq ▸ hs.keys_nodup) he
  have hcount : s.strongCount x.2 = 1 := by simpa using hx
  have hext : s.ext x.2 = 0 := by rw [hs.strongCount_of_mem hxq] at hcount; omega
  obtain ⟨c, hc, hcb⟩ := hs.entry x hxq
  have hnot : x.2 ∉ (l₁ ++ l₂).map Prod.snd := fun hm ↦ by
    obtain ⟨e, he, hex⟩ := List.mem_map.mp hm
    exact hptr e he hex
  have hzero : ({ s with queue := l₁ ++ l₂ } : CacheState).strongCount x.2 = 0 := by
    rw [strongCount, List.countP_snd_eq_count, List.count_eq_zero_of_not_mem hnot]
    simpa using hext
  have hev : s.evict idx =
      { s with queue := l₁ ++ l₂, device := (c.sync s.device).2,
               heap := Function.update s.heap x.2 none } := by
    simp only [CacheState.evict, hget, herase, dropUnreferenced, hzero, if_true, hc]
  have hsub : ∀ {β : Type} (f : Nat × Nat → β), ((l₁ ++ l₂).map f).Sublist (s.queue.map f) :=
    fun f ↦ by rw [hq]; exact ((List.Sublist.refl l₁).append (List.sublist_cons_self x l₂)).map f
  have hsnd : ∀ e ∈ s.queue, e ≠ x → e.2 ∈ (l₁ ++ l₂).map Prod.snd := fun e he hne ↦ by
    rw [hq] at he
    exact List.mem_map_of_mem _ (by rcases List.mem_append.mp he with h | h <;> simp_all)
  refine ⟨l₁, x, l₂, c, hq, hc, hcb, hext, hev, ?_⟩
  rw [hev]
  refine { length_le := ?length_le, keys_nodup := hs.keys_nodup.sublist (hsub _),
           ptrs_nodup := hs.ptrs_nodup.sublist (hsub _), entry := ?entry, pinned := ?pinned,
           live := ?live, fresh := fun e he ↦ hs.fresh e (hmem e he), coherent := ?coherent }
  case length_le =>
    have := hs.length_le
    have : s.queue.length = (l₁ ++ l₂).length + 1 := by simp [hq]; omega
    simp only; omega
  case entry =>
    intro e he
    simpa [Function.update_noteq (hptr e he)] using hs.entry e (hmem e he)
  case pinned =>
    intro p hp
    obtain ⟨e, he, rfl⟩ := List.mem_map.mp (hs.pinned p hp)
    exact hsnd e he fun h ↦ by simp [h, hext] at hp
  case live =>
    intro p c' hp
    dsimp only at hp ⊢
    have hpx : p ≠ x.2 := fun h ↦ by subst h; simp at hp
    rw [Function.update_noteq hpx] at hp
    obtain ⟨e, he, rfl⟩ := List.mem_map.mp (hs.live p c' hp)
    exact hsnd e he fun h ↦ hpx (h ▸ rfl)
  case coherent =>
    intro e he c' hc' hclean
    dsimp only at he hc' ⊢
    rw [Function.update_noteq (hptr e he)] at hc'
    have hne : ¬(c.modified = true ∧ e.1 = c.blockId) := fun h ↦ hkey e he (h.2.trans hcb)
    rw [BlockCache.device_sync, if_neg hne]
    exact hs.coherent e (hmem e he) c' hc' hclean

/-- A miss makes room by at most one eviction of an unpinned entry. -/
theorem Inv.makeRoom (hs : Inv s) {s' : CacheState} (h : s.makeRoom = .ok s') :
    Inv s' ∧ s'.queue.length < blockCacheSize ∧ s'.next = s.next ∧ (s' = s ∨
      ∃ l₁ x l₂ c, s.queue = l₁ ++ x :: l₂ ∧ s.heap x.2 = some c ∧ c.blockId = x.1 ∧
        s.ext x.2 = 0 ∧ s' = { s with queue := l₁ ++ l₂, device := (c.sync s.device).2,
                                      heap := Function.update s.heap x.2 none }) := by
  unfold CacheState.makeRoom at h
  split_ifs at h with hlen
  · split at h
    · rename_i idx hidx
      cases h
      obtain ⟨l₁, x, l₂, c, hq, hc, hcb, hext, hev, hinv⟩ := hs.evict hidx
      refine ⟨hinv, ?_, by rw [hev], .inr ⟨l₁, x, l₂, c, hq, hc, hcb, hext, hev⟩⟩
      rw [hev]
      have : s.queue.length = (l₁ ++ l₂).length + 1 := by simp [hq]; omega
      simp only; omega
    · cases h
  · cases h
    exact ⟨hs, lt_of_le_of_ne hs.length_le hlen, rfl, .inl rfl⟩

theorem Inv.pushBack (hs : Inv s) {blockId : Nat} (hb : blockId ∉ s.queue.map Prod.fst)
    (hlen : s.queue.length < blockCacheSize) : Inv (s.pushBack blockId).2 := by
  have hnew : s.next ∉ s.queue.map Prod.snd := fun hm ↦ by
    obtain ⟨e, he, hen⟩ := List.mem_map.mp hm
    exact absurd (hs.fresh e he) (by omega)
  have hold : ∀ e ∈ s.queue, e.2 ≠ s.next := fun e he h ↦ hnew (h ▸ List.mem_map_of_mem _ he)
  refine { length_le := by simpa [CacheState.pushBack] using hlen,
           keys_nodup := by
             simpa [CacheState.pushBack] using List.nodup_append.mpr
               ⟨hs.keys_nodup, List.nodup_singleton _, List.disjoint_singleton.mpr hb⟩,
           ptrs_nodup := by
             simpa [CacheState.pushBack] using List.nodup_append.mpr
               ⟨hs.ptrs_nodup, List.nodup_singleton _, List.disjoint_singleton.mpr hnew⟩,
           entry := ?entry, pinned := ?pinned, live := ?live, fresh := ?fresh,
           coherent := ?coherent }
  case entry =>
    intro e he
    simp only [CacheState.pushBack, List.mem_append, List.mem_singleton] at he ⊢
    rcases he with he | rfl
    · simpa [Function.update_noteq (hold e he)] using hs.entry e he
    · simp [BlockCache.new]
  case pinned =>
    intro p hp
    simp only [CacheState.pushBack, List.map_append, List.mem_append] at hp ⊢
    by_cases hpn : p = s.next
    · simp [hpn]
    · exact .inl (hs.pinned p (by simpa [hpn] using hp))
  case live =>
    intro p c hp
    simp only [CacheState.pushBack, List.map_append, List.mem_append] at hp ⊢
    by_cases hpn : p = s.next
    · simp [hpn]
    · exact .inl (hs.live p c (by simpa [hpn] using hp))
  case fresh =>
    intro e he
    simp only [CacheState.pushBack, List.mem_append, List.mem_singleton] at he ⊢
    rcases he with he | rfl
    · exact Nat.lt_succ_of_lt (hs.fresh e he)
    · exact Nat.lt_succ_self _
  case coherent =>
    intro e he c hc hclean
    simp only [CacheState.pushBack, List.mem_append, List.mem_singleton] at he hc ⊢
    rcases he with he | rfl
    · rw [Function.update_noteq (hold e he)] at hc
      exact hs.coherent e he c hc hclean
    · simp only [Function.update_same, Option.some.injEq] at hc
      rw [← hc]; rfl

theorem Inv.getBlockCache (hs : Inv s) {blockId p : Nat} {s' : CacheState}
    (h : getBlockCache blockId s = .ok (p, s')) : Inv s' := by
  rcases getBlockCache_eq_ok h with ⟨he, rfl⟩ | ⟨hb, s₁, hroom, hpush⟩
  · exact hs.hit he
  · obtain ⟨hs₁, hlen, -, hcase⟩ := hs.makeRoom hroom
    have hb₁ : blockId ∉ s₁.queue.map Prod.fst := by
      rcases hcase with rfl | ⟨l₁, x, l₂, c, hq, -, -, -, rfl⟩
      · exact hb
      · intro hm
        obtain ⟨e, he, rfl⟩ := List.mem_map.mp hm
        exact hb (List.mem_map_of_mem _ (by rw [hq]; simp at he ⊢; tauto))
    rw [show s' = (s₁.pushBack blockId).2 by rw [← hpush]]
    exact hs₁.pushBack hb₁ hlen

/-- Dropping a handle never drops an allocation: the queue still holds it. -/
theorem Inv.release_eq (hs : Inv s) {p : Nat} (hp : 0 < s.ext p) :
    s.release p = { s with ext := Function.update s.ext p (s.ext p - 1) } := by
  obtain ⟨e, he, rfl⟩ := List.mem_map.mp (hs.pinned p hp)
  have hcount := hs.strongCount_of_mem he
  unfold release dropUnreferenced
  rw [if_neg]
  simp only [strongCount] at hcount ⊢
  omega

theorem Inv.release (hs : Inv s) {p : Nat} (hp : 0 < s.ext p) : Inv (s.release p) := by
  rw [hs.release_eq hp]
  exact { hs with
    pinned := fun q hq ↦ hs.pinned q (by
      by_cases hqp : q = p
      · exact hqp ▸ hp
      · simpa [hqp] using hq) }

theorem Inv.modify (hs : Inv s) {p offset size : Nat} {f : List UInt8 → List UInt8}
    {s' : CacheState} (h : s.modify p offset size f = .ok s') : Inv s' := by
  obtain ⟨c, c', hc, hc', rfl⟩ := modify_eq_ok h
  obtain ⟨-, rfl⟩ := BlockCache.modify_eq_ok hc'
  refine { hs with entry := ?entry, live := ?live, coherent := ?coherent }
  case entry =>
    intro e he
    dsimp only at he ⊢
    by_cases hep : e.2 = p
    · obtain ⟨c₀, hc₀, hb⟩ := hs.entry e he
      rw [hep, hc] at hc₀
      cases hc₀
      refine ⟨_, by rw [hep, Function.update_same], ?_⟩
      exact hb
    · simpa [Function.update_noteq hep] using hs.entry e he
  case live =>
    intro q c₀ hq
    by_cases hqp : q = p
    · exact hqp ▸ hs.live p c hc
    · exact hs.live q c₀ (by simpa [hqp] using hq)
  case coherent =>
    intro e he c₀ hc₀ hclean
    dsimp only at he hc₀ ⊢
    by_cases hep : e.2 = p
    · rw [hep, Function.update_same, Option.some.injEq] at hc₀
      rw [← hc₀] at hclean
      cases hclean
    · exact hs.coherent e he c₀ (by simpa [Function.update_noteq hep] using hc₀) hclean

theorem Inv.syncEntry (hs : Inv s) {e : Nat × Nat} (he : e ∈ s.queue) :
    Inv (s.syncEntry e.2) := by
  obtain ⟨c, hc, hcb⟩ := hs.entry e he
  have hsync : s.syncEntry e.2 = { s with heap := Function.update s.heap e.2 (some (c.sync s.device).1),
                                           device := (c.sync s.device).2 } := by
    simp [CacheState.syncEntry, hc]
  rw [hsync]
  refine { hs with entry := ?entry, live := ?live, coherent := ?coherent }
  case entry =>
    intro f hf
    by_cases hfe : f.2 = e.2
    · rw [hs.eq_of_ptr hf he hfe]; simp [hcb]
    · simpa [Function.update_noteq hfe] using hs.entry f hf
  case live =>
    intro q c₀ hq
    by_cases hqe : q = e.2
    · exact hqe ▸ List.mem_map_of_mem _ he
    · exact hs.live q c₀ (by simpa [hqe] using hq)
  case coherent =>
    intro f hf c₀ hc₀ hclean
    dsimp only at hf hc₀ ⊢
    rw [BlockCache.device_sync]
    by_cases hfe : f.2 = e.2
    · obtain rfl := hs.eq_of_ptr hf he hfe
      simp only [Function.update_same, Option.some.injEq] at hc₀
      subst hc₀
      by_cases hm : c.modified
      · simp [hm, hcb]
      · simpa [hm] using hs.coherent f hf c hc (by simpa using hm)
    · rw [Function.update_noteq hfe] at hc₀
      have hkey : f.1 ≠ c.blockId := fun h ↦ hfe (congrArg Prod.snd
        (hs.eq_of_key hf he (h.trans hcb)))
      simpa [hkey] using hs.coherent f hf c₀ hc₀ hclean

theorem Inv.blockCacheSyncAll (hs : Inv s) : Inv s.blockCacheSyncAll := by
  suffices ∀ (l : List (Nat × Nat)) (t : CacheState), Inv t → t.queue = s.queue →
      (∀ e ∈ l, e ∈ s.queue) → Inv (l.foldl (fun s e ↦ s.syncEntry e.2) t) from
    this _ _ hs rfl fun _ h ↦ h
  intro l
  induction l with
  | nil => exact fun t ht _ _ ↦ ht
  | cons e l ih =>
    intro t ht hq hl
    exact ih _ (ht.syncEntry (hq ▸ hl e (List.mem_cons_self _ _))) (by simp [hq])
      fun f hf ↦ hl f (List.mem_cons_of_mem _ hf)

theorem Inv.step (hs : Inv s) {s' : CacheState} (h : Step s s') : Inv s' := by
  cases h with
  | get h => exact hs.getBlockCache h
  | release hp => exact hs.release hp
  | modify _ h => exact hs.modify h
  | syncAll => exact hs.blockCacheSyncAll

theorem Reachable.inv {s : CacheState} (h : Reachable s) : Inv s := by
  induction h with
  | init device => exact inv_init device
  | step _ hstep ih => exact ih.step hstep

/-! ### What the manager promises -/

/-- No step removes an entry that a handle outside the queue still holds. -/
theorem Inv.mem_queue_of_step (hs : Inv s) {s' : CacheState} (h : Step s s') {e : Nat × Nat}
    (he : e ∈ s.queue) (hpin : 1 < s.strongCount e.2) : e ∈ s'.queue := by
  have hext : 0 < s.ext e.2 := by rw [hs.strongCount_of_mem he] at hpin; omega
  cases h with
  | get h =>
    rcases getBlockCache_eq_ok h with ⟨-, rfl⟩ | ⟨-, s₁, hroom, hpush⟩
    · exact he
    · obtain ⟨-, -, -, hcase⟩ := hs.makeRoom hroom
      have he₁ : e ∈ s₁.queue := by
        rcases hcase with rfl | ⟨l₁, x, l₂, c, hq, -, -, hx, rfl⟩
        · exact he
        · have hne : e ≠ x := fun h ↦ by rw [h] at hext; omega
          rw [hq] at he
          simp only [List.mem_append, List.mem_cons] at he ⊢
          tauto
      rw [show s' = (s₁.pushBack _).2 by rw [← hpush]]
      simp [CacheState.pushBack, he₁]
  | release _ => simpa using he
  | modify _ h =>
    obtain ⟨c, c', -, -, rfl⟩ := modify_eq_ok h
    exact he
  | syncAll => simpa using he

/-- `get_block_cache` panics exactly when the block is absent, the queue is full, and every
entry has a handle outstanding outside the queue. -/
theorem Inv.getBlockCache_eq_error (hs : Inv s) (blockId : Nat) (msg : String) :
    CacheState.getBlockCache blockId s = .error msg ↔ msg = "Run out of BlockCache!" ∧
      blockId ∉ s.queue.map Prod.fst ∧ s.queue.length = blockCacheSize ∧
      ∀ e ∈ s.queue, 1 < s.strongCount e.2 := by
  have hpin : (∀ e ∈ s.queue, (s.strongCount e.2 == 1) = false) ↔
      ∀ e ∈ s.queue, 1 < s.strongCount e.2 := by
    refine forall₂_congr fun e he ↦ ?_
    rw [hs.strongCount_of_mem he]
    simp only [beq_eq_false_iff_ne]
    omega
  unfold CacheState.getBlockCache
  cases hf : s.queue.find? (fun e ↦ e.1 == blockId) with
  | some e =>
    obtain ⟨b, p⟩ := e
    have hb : blockId ∈ s.queue.map Prod.fst :=
      (by simpa using List.find?_some hf : b = blockId) ▸
        List.mem_map_of_mem _ (List.mem_of_find?_eq_some hf)
    simp [hb]
  | none =>
    have hb := List.find?_key_eq_none.mp hf
    unfold CacheState.makeRoom
    by_cases hlen : s.queue.length = blockCacheSize
    · cases hi : s.queue.findIdx? (fun e ↦ s.strongCount e.2 == 1) with
      | some idx =>
        obtain ⟨l₁, x, l₂, hq, hx, -⟩ := List.split_of_findIdx?_eq_some hi
        have hxq : x ∈ s.queue := by rw [hq]; simp
        have : ¬ 1 < s.strongCount x.2 := by simp only [beq_iff_eq] at hx; omega
        simp only [hlen, hi, if_true, Except.map]
        simp only [reduceCtorEq, false_iff, not_and]
        exact fun _ _ _ hall ↦ this (hall x hxq)
      | none =>
        rw [List.findIdx?_eq_none_iff, hpin] at hi
        simp only [hlen, if_true, Except.map, Except.error.injEq, eq_comm, hb,
          not_false_eq_true, true_and]
        exact ⟨fun h ↦ ⟨h, hi⟩, And.left⟩
    · simp [hlen, Except.map]

/-- What the block cache manager promises in every reachable state: at most
`BLOCK_CACHE_SIZE` entries, pairwise distinct block ids, each entry mirroring its own key, no
step removing an entry with an outstanding handle, and a panic of `get_block_cache` exactly
when the block is absent and all sixteen entries are pinned. -/
theorem cacheManager_invariants {s : CacheState} (hs : Reachable s) :
    s.queue.length ≤ blockCacheSize ∧ (s.queue.map Prod.fst).Nodup ∧
      (∀ e ∈ s.queue, ∃ c, s.heap e.2 = some c ∧ c.blockId = e.1) ∧
      (∀ s', Step s s' → ∀ e ∈ s.queue, 1 < s.strongCount e.2 → e ∈ s'.queue) ∧
      ∀ blockId msg, getBlockCache blockId s = .error msg ↔ msg = "Run out of BlockCache!" ∧
        blockId ∉ s.queue.map Prod.fst ∧ s.queue.length = blockCacheSize ∧
        ∀ e ∈ s.queue, 1 < s.strongCount e.2 :=
  have hi := hs.inv
  ⟨hi.length_le, hi.keys_nodup, hi.entry, fun _ h _ he hp ↦ hi.mem_queue_of_step h he hp,
    hi.getBlockCache_eq_error⟩

/-- The device whose blocks are all zero. -/
def zeroDevice : Nat → Block := fun _ ↦ default

/-- The cache after one `get_block_cache(7)` on the empty manager. -/
def loadedSeven : CacheState := ((init zeroDevice).pushBack 7).2

theorem reachable_loadedSeven : Reachable loadedSeven :=
  .step (.init zeroDevice) (.get (show getBlockCache 7 (init zeroDevice) = .ok (0, loadedSeven)
    from rfl))

theorem cacheManager_invariants_loadedSeven :
    Reachable loadedSeven ∧ loadedSeven.queue.length ≤ blockCacheSize ∧
      (loadedSeven.queue.map Prod.fst).Nodup ∧
      (∀ e ∈ loadedSeven.queue, ∃ c, loadedSeven.heap e.2 = some c ∧ c.blockId = e.1) ∧
      (∀ s', Step loadedSeven s' → ∀ e ∈ loadedSeven.queue,
        1 < loadedSeven.strongCount e.2 → e ∈ s'.queue) ∧
      ∀ blockId msg, getBlockCache blockId loadedSeven = .error msg ↔
        msg = "Run out of BlockCache!" ∧ blockId ∉ loadedSeven.queue.map Prod.fst ∧
        loadedSeven.queue.length = blockCacheSize ∧
        ∀ e ∈ loadedSeven.queue, 1 < loadedSeven.strongCount e.2 :=
  ⟨reachable_loadedSeven, cacheManager_invariants reachable_loadedSeven⟩

end CacheState

end Rcore.EasyFs
