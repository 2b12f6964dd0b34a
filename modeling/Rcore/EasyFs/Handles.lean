import Rcore.EasyFs.BlockIo
import Mathlib.Data.Finset.Card

/-!
# Handles held at once, and a cache that does not run out

`get_block_cache` panics with `Run out of BlockCache!` only on a miss with the queue full and a
handle outstanding on every entry (`Inv.getBlockCache_eq_error`). A computation holds the handle of
a `read` or a `modify` for as long as the closure runs, so the handles it holds at once are bounded
by how deeply these closures nest (`HoldsAtMost`). Every handle a computation takes is one more
held entry of the queue, at most (`Inv.card_held_getBlockCache`); when the nesting, added to the
entries already held (`CacheState.held`), fits in `BLOCK_CACHE_SIZE`, `get_block_cache` always
returns (`Inv.getBlockCache_ok`).

Such a computation fails on the cache only where it fails on the block array the cache stands
for, with the same panic (`runCache_error_of_holdsAtMost`). With `runCache_simulates`, which
covers the runs that return, the cache is transparent to it: run on the cache, it returns what it
returns on the array `logical` or panics as it does there, and ends in a cache whose array is the
one the array run ends in (`runCache_agrees`).
-/

set_option autoImplicit false
set_option relaxedAutoImplicit false

namespace Rcore.EasyFs

namespace BlockIo

/-- A computation holds at most `n` block-cache handles at once: a `read` or a `modify` holds one
while its closure runs. -/
inductive HoldsAtMost : {α : Type} → Nat → BlockIo α → Prop
  | pure {α : Type} (n : Nat) (a : α) : HoldsAtMost n (.pure a)
  | bind {α β : Type} {n : Nat} {y : BlockIo β} {k : β → BlockIo α} :
      HoldsAtMost n y → (∀ b, HoldsAtMost n (k b)) → HoldsAtMost n (.bind y k)
  | read {α : Type} {n blockId offset size : Nat} {body : List UInt8 → BlockIo α} :
      (∀ bytes, HoldsAtMost n (body bytes)) → HoldsAtMost (n + 1) (.read blockId offset size body)
  | modify {α : Type} {n blockId offset size : Nat}
      {body : List UInt8 → BlockIo (List UInt8 × α)} :
      (∀ bytes, HoldsAtMost n (body bytes)) →
        HoldsAtMost (n + 1) (.modify blockId offset size body)
  | syncAll (n : Nat) : HoldsAtMost n .syncAll
  | panic {α : Type} (n : Nat) (msg : String) : HoldsAtMost n (.panic msg : BlockIo α)

theorem HoldsAtMost.mono {α : Type} {n : Nat} {x : BlockIo α} (h : HoldsAtMost n x) :
    ∀ {m : Nat}, n ≤ m → HoldsAtMost m x := by
  induction h with
  | pure n a => exact fun _ ↦ .pure _ a
  | bind _ _ ihy ihk => exact fun hm ↦ .bind (ihy hm) fun b ↦ ihk b hm
  | read _ ih =>
    intro m hm
    obtain ⟨m, rfl⟩ : ∃ m', m = m' + 1 := ⟨m - 1, by omega⟩
    exact .read fun bytes ↦ ih bytes (by omega)
  | modify _ ih =>
    intro m hm
    obtain ⟨m, rfl⟩ : ∃ m', m = m' + 1 := ⟨m - 1, by omega⟩
    exact .modify fun bytes ↦ ih bytes (by omega)
  | syncAll n => exact fun _ ↦ .syncAll _
  | panic n msg => exact fun _ ↦ .panic _ msg

end BlockIo

namespace CacheState

variable {s t : CacheState}

/-- The entries of the queue with a handle outstanding. -/
def held (s : CacheState) : Finset Nat := (s.queue.map Prod.snd).toFinset.filter (0 < s.ext ·)

theorem Inv.mem_held (hs : Inv s) {p : Nat} : p ∈ s.held ↔ 0 < s.ext p := by
  simp only [held, Finset.mem_filter, List.mem_toFinset]
  exact ⟨And.right, fun hp ↦ ⟨hs.pinned p hp, hp⟩⟩

/-- Under the invariant the held entries are the handles outstanding, wherever the queue stands. -/
theorem Inv.held_congr (hs : Inv s) (ht : Inv t) (h : t.ext = s.ext) : t.held = s.held :=
  Finset.ext fun p ↦ by rw [ht.mem_held, hs.mem_held, h]

@[simp] theorem held_init (device : Nat → Block) : (init device).held = ∅ := rfl

/-- No entry is held when no handle is outstanding. -/
theorem Inv.held_eq_empty (hs : Inv s) (h : ∀ p, s.ext p = 0) : s.held = ∅ :=
  Finset.eq_empty_of_forall_not_mem fun p hp ↦ by
    rw [hs.mem_held, h] at hp
    exact Nat.lt_irrefl 0 hp

/-- With an entry free of handles, or room in the queue, `get_block_cache` returns. -/
theorem Inv.getBlockCache_ok (hs : Inv s) (hroom : s.held.card < blockCacheSize) (blockId : Nat) :
    ∃ p s', CacheState.getBlockCache blockId s = .ok (p, s') := by
  cases h : CacheState.getBlockCache blockId s with
  | ok r => exact ⟨r.1, r.2, rfl⟩
  | error msg =>
    obtain ⟨-, -, hlen, hpin⟩ := (hs.getBlockCache_eq_error blockId msg).mp h
    -- every entry of the full queue is held
    have hall : s.held = (s.queue.map Prod.snd).toFinset :=
      Finset.filter_true_of_mem fun p hp ↦ by
        obtain ⟨e, he, rfl⟩ := List.mem_map.mp (List.mem_toFinset.mp hp)
        have := hpin e he
        rw [hs.strongCount_of_mem he] at this
        omega
    rw [hall, List.toFinset_card_of_nodup hs.ptrs_nodup, List.length_map, hlen] at hroom
    exact absurd hroom (Nat.lt_irrefl _)

/-- `get_block_cache` holds one more entry at most: the one it hands out. -/
theorem Inv.card_held_getBlockCache (hs : Inv s) {blockId p : Nat} {s' : CacheState}
    (h : CacheState.getBlockCache blockId s = .ok (p, s')) : s'.held.card ≤ s.held.card + 1 := by
  obtain ⟨hs', -, -, hext, -⟩ := hs.getBlockCache_spec h
  calc s'.held.card ≤ (insert p s.held).card := Finset.card_le_card fun q hq ↦ by
        rw [hs'.mem_held, hext, Function.update_apply] at hq
        rw [Finset.mem_insert, hs.mem_held]
        split_ifs at hq with hqp
        · exact .inl hqp
        · exact .inr hq
    _ ≤ s.held.card + 1 := Finset.card_insert_le p s.held

end CacheState

namespace BlockIo

open CacheState

/-- A computation that fits in the cache fails on the cache only where it fails on the block
array, with the same panic: `Run out of BlockCache!` never comes up. -/
theorem runCache_error_of_holdsAtMost {α : Type} {n : Nat} {x : BlockIo α}
    (hx : HoldsAtMost n x) : ∀ {s : CacheState} {msg : String}, Inv s →
      s.held.card + n ≤ blockCacheSize → x.runCache s = .error msg →
      x.runStore s.logical = .error msg := by
  induction hx with
  | pure n a => intro s msg _ _ h; rw [runCache] at h; cases h
  | bind _ _ ihy ihk =>
    intro s msg hs hroom h
    rw [runCache] at h
    rw [runStore_bind]
    split at h
    · rename_i b s₁ hrun
      obtain ⟨hst, hs₁, hext, -⟩ := runCache_simulates _ hs hrun
      rw [hst]
      exact ihk b hs₁ (by rwa [hs.held_congr hs₁ hext]) h
    · rename_i e hrun
      cases h
      rw [ihy hs hroom hrun]
  | @read α n blockId offset size body _ ih =>
    intro s msg hs hroom h
    obtain ⟨p, s₁, hget⟩ := hs.getBlockCache_ok (by omega) blockId
    obtain ⟨hs₁, hl₁, ⟨c, hc, hcb⟩, hext₁, -⟩ := hs.getBlockCache_spec hget
    have hp : 0 < s₁.ext p := by simp [hext₁]
    rw [runCache, hget] at h
    dsimp only at h
    rw [hs₁.read_eq hp hc] at h
    by_cases hb : offset + size ≤ blockSz
    · rw [if_pos hb] at h
      dsimp only at h
      split at h
      · rename_i e hbody
        cases h
        rw [runStore_read _ _ _ _ _ hb, ← hl₁, ← hcb]
        exact ih _ hs₁ (by have := hs.card_held_getBlockCache hget; omega) hbody
      · cases h
    · rw [if_neg hb] at h
      cases h
      rw [runStore, if_neg hb]
  | @modify α n blockId offset size body _ ih =>
    intro s msg hs hroom h
    obtain ⟨p, s₁, hget⟩ := hs.getBlockCache_ok (by omega) blockId
    obtain ⟨hs₁, hl₁, ⟨c, hc, hcb⟩, hext₁, -⟩ := hs.getBlockCache_spec hget
    have hp : 0 < s₁.ext p := by simp [hext₁]
    rw [runCache, hget] at h
    dsimp only at h
    rw [hs₁.read_eq hp hc] at h
    by_cases hb : offset + size ≤ blockSz
    · rw [if_pos hb] at h
      dsimp only at h
      split at h
      · rename_i e hbody
        cases h
        rw [runStore_modify _ _ _ _ _ hb, ← hl₁, ← hcb,
          ih _ hs₁ (by have := hs.card_held_getBlockCache hget; omega) hbody]
      · rename_i new a s₂ hbody
        -- the handle keeps its entry alive, so the write-back through it succeeds
        obtain ⟨c₂, hc₂, -⟩ := (runCache_simulates _ hs₁ hbody).2.2.2 p c hp hc
        split at h
        · rename_i e hmod
          simp only [CacheState.modify, hc₂, BlockCache.modify, if_pos hb] at hmod
          cases hmod
        · cases h
    · rw [if_neg hb] at h
      cases h
      rw [runStore, if_neg hb]
  | syncAll n => intro s msg _ _ h; rw [runCache] at h; cases h
  | panic n msg' => intro s msg _ _ h; rw [runCache] at h; cases h; exact runStore_panic _ _

/-- The cache is transparent to `x` from `s`: on the cache `x` returns what it returns on the
block array `s.logical`, or panics as it does there, and ends in a cache whose array is the one
the array run ends in. -/
def CacheTransparent {α : Type} (x : BlockIo α) (s : CacheState) : Prop :=
  (x.runCache s).map (fun r ↦ (r.1, r.2.logical)) = x.runStore s.logical

/-- The cache is transparent to a computation that fits in it. -/
theorem runCache_agrees {α : Type} {n : Nat} {x : BlockIo α} (hx : HoldsAtMost n x)
    {s : CacheState} (hs : Inv s) (hroom : s.held.card + n ≤ blockCacheSize) :
    x.CacheTransparent s := by
  unfold CacheTransparent
  cases h : x.runCache s with
  | ok r =>
    obtain ⟨a, s'⟩ := r
    rw [(runCache_simulates x hs h).1]
    rfl
  | error msg =>
    rw [runCache_error_of_holdsAtMost hx hs hroom h]
    rfl

/-- A computation that fits in the cache returns on the cache whenever it returns on the array. -/
theorem runCache_ok_of_runStore_ok {α : Type} {n : Nat} {x : BlockIo α} (hx : HoldsAtMost n x)
    {s : CacheState} (hs : Inv s) (hroom : s.held.card + n ≤ blockCacheSize) {a : α}
    {store' : Nat → Block} (h : x.runStore s.logical = .ok (a, store')) :
    ∃ s', x.runCache s = .ok (a, s') ∧ s'.logical = store' := by
  have hagree := runCache_agrees hx hs hroom
  rw [CacheTransparent, h] at hagree
  cases hc : x.runCache s with
  | ok r => rw [hc] at hagree; cases hagree; exact ⟨r.2, rfl, rfl⟩
  | error e => rw [hc] at hagree; cases hagree

end BlockIo

end Rcore.EasyFs
